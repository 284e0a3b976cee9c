import ComputerNetworking.RoutingDaemon

/-! Packets for one node, after the daemons have calculated the routes. -/

namespace ComputerNetworking.Routing.Network

open ShortestPath Transition WorkPool

variable {A R : Type}

section Unicast

/-- The node to which a node sends a packet for `dest`. -/
def hop (net : Network R) (dest u : NodeAddressT) : Option NodeAddressT :=
  (net.stackAt u).bind fun st => (st.lookupRoute dest).bind fun gate => st.netOut[gate]?.map OutLink.peer

variable {net net' : Network R}

/-- At a node that is not its destination, a packet goes to the hop of the node. -/
theorem next_of_hop {a : Arrival A} {st : NetworkStack R} (hst : net.stackAt a.node = some st)
    (hkind : a.isLocal = false) (hquiet : a.packet.alert = false)
    (hplain : a.packet.destNode ∉ [PS_NODE_UNKNOWN, PS_DEST_BROADCAST_ALL, PS_DEST_BROADCAST_LIMIT])
    (hne : a.node ≠ a.packet.destNode) {h : NodeAddressT} (hhop : net.hop a.packet.destNode a.node = some h)
    (hTTL : (st.stamp a.fromAppl a.packet).TTL < net.maxTTL) :
    net.next a = [⟨h, none, false, forwarded a.node (st.stamp a.fromAppl a.packet)⟩] ∧
      net.delivered a = [] := by
  obtain ⟨hmem, haddr⟩ := mem_of_stackAt hst
  obtain ⟨hdest, -, hal, -, -⟩ := stamp_quiet st a.fromAppl hquiet
  simp only [List.mem_cons, List.not_mem_nil, or_false, not_or] at hplain
  have hout : st.handleMessage a.fromAppl a.isLocal a.packet =
      st.sendOut (st.stamp a.fromAppl a.packet) := by
    unfold NetworkStack.handleMessage
    dsimp only
    rw [if_neg]
    simp [hkind, hal, hdest, haddr, Ne.symm hne]
  rw [hop, hst, Option.bind_some] at hhop
  obtain ⟨gate, hroute, hlink⟩ := Option.bind_eq_some_iff.mp hhop
  obtain ⟨link, hget, hpeer⟩ := Option.map_eq_some_iff.mp hlink
  have hsend : st.sendOut (st.stamp a.fromAppl a.packet) =
      [.netOut gate (forwarded st.nodeAddr (st.stamp a.fromAppl a.packet))] := by
    unfold NetworkStack.sendOut
    rw [if_neg (by rw [net.ttl st hmem]; omega), if_neg (by rw [hdest]; exact hplain.1),
      if_neg (by rw [hdest, not_or]; exact hplain.2)]
    have hroute' : st.lookupRoute (st.stamp a.fromAppl a.packet).destNode = some gate := by
      rw [hdest, hroute]
    rw [hroute']
    rfl
  constructor
  · simp [next, hst, hout, hsend, arrive, hget, hpeer, haddr]
  · simp [delivered, hst, hout, hsend]

/-- At its destination a packet is handed to its application and goes no further. -/
theorem next_at_dest {a : Arrival A} {st : NetworkStack R} (hst : net.stackAt a.node = some st)
    (hquiet : a.packet.alert = false) (heq : a.node = a.packet.destNode) :
    net.next a = [] ∧
      (net.delivered a).map (fun r => (r.1, r.2.1, r.2.2.content)) =
        (st.lookupApplication a.packet.destAppl).toList.map fun gate =>
          (a.packet.destNode, gate, a.packet.content) := by
  obtain ⟨hmem, haddr⟩ := mem_of_stackAt hst
  obtain ⟨hdest, happl, -, hcontent, -⟩ := stamp_quiet st a.fromAppl hquiet
  have hout : st.handleMessage a.fromAppl a.isLocal a.packet =
      st.deliverLocally (st.stamp a.fromAppl a.packet) := by
    unfold NetworkStack.handleMessage
    dsimp only
    rw [if_pos]
    exact Or.inr (Or.inr (by rw [hdest, haddr, heq]))
  constructor
  · rw [next, hst]
    dsimp only
    rw [hout, arrive_deliverLocally]
  · rw [delivered, hst]
    dsimp only
    rw [hout, NetworkStack.deliverLocally, happl]
    cases st.lookupApplication a.packet.destAppl with
    | none => rfl
    | some gate =>
        simp [hdest, haddr, heq, hcontent]

/-- All that comes of a packet for `dest` when the hops lead there: its arrivals on the way, and one delivery. -/
theorem family_unicast {st : NetworkStack R} {hops : List NodeAddressT} {a : Arrival A}
    (hfollow : Follows (net.hop a.packet.destNode) a.packet.destNode a.node hops)
    (hkind : a.isLocal = false) (hquiet : a.packet.alert = false)
    (hplain : a.packet.destNode ∉ [PS_NODE_UNKNOWN, PS_DEST_BROADCAST_ALL, PS_DEST_BROADCAST_LIMIT])
    (hst : net.stackAt a.packet.destNode = some st)
    (hTTL : (if a.fromAppl = none then a.packet.TTL else 0) + hops.length ≤ net.maxTTL) :
    (family net.next net.hopsLeft a).map Arrival.node = a.node :: hops ∧
      ((family net.next net.hopsLeft a).flatMap net.delivered).map (fun r => (r.1, r.2.1, r.2.2.content)) =
        (st.lookupApplication a.packet.destAppl).toList.map fun gate =>
          (a.packet.destNode, gate, a.packet.content) := by
  induction hops generalizing a with
  | nil =>
      have heq : a.node = a.packet.destNode := hfollow
      obtain ⟨hnext, hdel⟩ := next_at_dest (heq ▸ hst) hquiet heq
      rw [family_eq net.hopsLeft_lt, hnext]
      simpa using hdel
  | cons h hops ih =>
      obtain ⟨hne, hhop, hrest⟩ := hfollow
      obtain ⟨sta, hstack, -⟩ := Option.bind_eq_some_iff.mp hhop
      obtain ⟨hdest, happl, hal, hcontent, hstamp⟩ := stamp_quiet sta a.fromAppl hquiet
      rw [List.length_cons] at hTTL
      obtain ⟨hnext, hdel⟩ := next_of_hop hstack hkind hquiet hplain hne hhop (by rw [hstamp]; omega)
      obtain ⟨hnodes, hdels⟩ := @ih ⟨h, none, false, forwarded a.node (sta.stamp a.fromAppl a.packet)⟩
        (by simpa [forwarded, hdest] using hrest) rfl hal
        (by simpa [forwarded, hdest] using hplain) (by simpa [forwarded, hdest] using hst)
        (by
          simp only [forwarded, if_true, hstamp]
          omega)
      rw [family_eq net.hopsLeft_lt, hnext]
      simp only [List.flatMap_cons, List.flatMap_nil, List.append_nil, hdel, List.nil_append, List.map_cons]
      refine ⟨congrArg (a.node :: ·) hnodes, ?_⟩
      simpa [forwarded, hdest, happl, hcontent] using hdels

/-- What the application at the destination of a packet is to get. -/
def receipt (net : Network R) (a : Arrival A) : List (NodeAddressT × Nat × A) :=
  match net.stackAt a.packet.destNode with
  | none => []
  | some st =>
      (st.lookupApplication a.packet.destAppl).toList.map fun gate =>
        (a.packet.destNode, gate, a.packet.content)

section Routes

variable [Doubles R]

theorem recalculate_spec (h : net.recalculate = some net') :
    net'.maxTTL = net.maxTTL ∧ (∀ st ∈ net.routers, (net.calculateRoutes st).isSome) ∧
      ∀ st ∈ net.nodes, net'.stackAt st.nodeAddr = some (net.updateRoutes st) := by
  unfold recalculate at h
  split at h
  · next hall =>
      obtain rfl := Option.some.inj h
      refine ⟨rfl, hall, fun st hst => ?_⟩
      rw [← updateRoutes_nodeAddr net st]
      exact stackAt_of_mem _ (List.mem_map_of_mem hst)
  · simp at h

/-- The nodes on the way of a packet are the first nodes of cheapest ways. -/
theorem hop_cheapest (h : net.recalculate = some net') {u dest : NodeAddressT} (hu : u ∈ net.topology.nodes)
    (hdest : dest ∈ net.topology.nodes) (hne : u ≠ dest) :
    ∃ v ∈ net.topology.nodes, net'.hop dest u = some v ∧ CheapestBy net.topology.Edge u dest v := by
  obtain ⟨-, hall, hstacks⟩ := recalculate_spec h
  obtain ⟨st, hst, rfl⟩ := List.mem_map.mp (mem_topology.mp hu)
  obtain ⟨table, htable⟩ := Option.isSome_iff_exists.mp (hall st hst)
  have hrouter : (st.lookupApplication PS_ROUTING_DAEMON).isSome := by
    simpa using (List.mem_filter.mp hst).2
  have hup : net.updateRoutes st = { st with routes := table } := by
    rw [updateRoutes, if_pos hrouter, htable, Option.getD_some]
  obtain ⟨routes, hdo, hadd⟩ := Option.bind_eq_some_iff.mp htable
  obtain ⟨hbound, hcheap⟩ := doDijkstra_cheapest hu hdo
  obtain ⟨link, hlink⟩ := Option.isSome_iff_exists.mp ((hbound dest).mpr ⟨hdest, hne.symm⟩)
  obtain ⟨hget, hby⟩ := hcheap dest link hlink
  obtain ⟨out, hout, hpeer, -⟩ := exists_link_of_edge hst ⟨link, hget, rfl⟩
  obtain ⟨gate, hgate⟩ := Option.isSome_iff_exists.mp (lookupNeighbor_isSome hout)
  rw [hpeer] at hgate
  obtain ⟨out', hout', hpeer'⟩ := netOut_of_lookupNeighbor hgate
  have hroute : table[dest]? = some gate := by
    rw [addRoutes_eq hadd, if_pos ((Topology.mem_getNodes _ _).mpr hdest), hlink]
    exact hgate
  refine ⟨link.destNode, ?_, ?_, hby⟩
  · have hedge : net.topology.Edge st.nodeAddr link.destNode link.weight := ⟨link, hget, rfl⟩
    exact hedge.mem.2
  · rw [hop, hstacks st (mem_of_router hst), hup]
    simp [NetworkStack.lookupRoute, hroute, hout', hpeer']

/-- A packet of a router, or on its way at one, for a router: no alert, and with enough hops left to meet every
router once. -/
structure Unicast (net : Network R) (a : Arrival A) : Prop where
  source : a.node ∈ net.topology.nodes
  dest : a.packet.destNode ∈ net.topology.nodes
  kind : a.isLocal = false
  quiet : a.packet.alert = false
  budget : (if a.fromAppl = none then a.packet.TTL else 0) + net.routers.length ≤ net.maxTTL + 1

/-- The metrics of the links between routers are whole numbers, and each router is reached from each at a cost below
the bound up to which these add up exactly. -/
structure WholeMetrics (net : Network R) : Prop where
  whole : ∀ st ∈ net.routers, ∀ link ∈ st.netOut, link.peer ∈ net.topology.nodes →
    ∃ n ≤ 2 ^ 53, st.weight link = Weight.whole n
  near : ∀ u ∈ net.topology.nodes, ∀ v ∈ net.topology.nodes,
    ∃ p d, Walk net.topology.Edge u p v d ∧ d < Weight.whole (2 ^ 53)

theorem WholeMetrics.edge (h : net.WholeMetrics) {u v : NodeAddressT} {w : Weight R}
    (hedge : net.topology.Edge u v w) : ∃ n ≤ 2 ^ 53, w = Weight.whole n := by
  obtain ⟨st, hst, rfl⟩ := List.mem_map.mp (mem_topology.mp hedge.mem.1)
  obtain ⟨link, hlink, hpeer, rfl⟩ := exists_link_of_edge hst hedge
  exact h.whole st hst link hlink (hpeer ▸ hedge.mem.2)

theorem receipt_eq {a : Arrival A} {st : NetworkStack R} (hst : st ∈ net.nodes)
    (haddr : st.nodeAddr = a.packet.destNode) :
    net.receipt a = ((net.updateRoutes st).lookupApplication a.packet.destAppl).toList.map fun gate =>
      (a.packet.destNode, gate, a.packet.content) := by
  rw [receipt, ← haddr, net.stackAt_of_mem hst]
  simp only [NetworkStack.lookupApplication, NetworkStack.applications, updateRoutes_toAppl]

/-- The way of one packet, and what comes of it. -/
theorem unicast_way (h : net.recalculate = some net') (hwhole : net.WholeMetrics) {a : Arrival A}
    (ha : net.Unicast a) :
    ∃ hops, (∃ d, Walk net.topology.Edge a.node hops a.packet.destNode d ∧
        Distance net.topology.Edge a.node a.packet.destNode d) ∧ (a.node :: hops).Nodup ∧
      (family net'.next net'.hopsLeft a).map Arrival.node = a.node :: hops ∧
      ((family net'.next net'.hopsLeft a).flatMap net'.delivered).map (fun r => (r.1, r.2.1, r.2.2.content)) =
        net.receipt a := by
  obtain ⟨hmax, -, hstacks⟩ := recalculate_spec h
  obtain ⟨st, hst, haddr⟩ := List.mem_map.mp (mem_topology.mp ha.dest)
  have hmem := mem_of_router hst
  have hfin : ∀ u, u ∈ (net.routers.map NetworkStack.nodeAddr).toFinset ↔ u ∈ net.topology.nodes := by
    intro u
    rw [List.mem_toFinset, mem_topology]
  have hcard : (net.routers.map NetworkStack.nodeAddr).toFinset.card = net.routers.length := by
    rw [List.toFinset_card_of_nodup net.nodup_routers, List.length_map]
  obtain ⟨hops, d, hfollow, hwalk, hdist, hnodup, hlen⟩ :=
    @exists_follows_whole _ _ _ _ _ _ Weight.wholeBelow (net'.hop a.packet.destNode) _ _ ((hfin _).mpr ha.dest)
      (fun u v w hedge => hwhole.edge hedge) (fun u v w hedge => edge_pos hedge)
      (fun u hu => hwhole.near u ((hfin u).mp hu) _ ha.dest)
      (fun u hu hne => by
        obtain ⟨v, hv, hhop, hby⟩ := hop_cheapest h ((hfin u).mp hu) ha.dest hne
        exact ⟨v, (hfin v).mpr hv, hhop, hby⟩)
      a.node ((hfin _).mpr ha.source)
  have hbudget := ha.budget
  obtain ⟨hnodes, hdels⟩ := family_unicast hfollow ha.kind ha.quiet (haddr ▸ net.plain st hmem)
    (haddr ▸ hstacks st hmem) (by rw [hmax]; omega)
  exact ⟨hops, ⟨d, hwalk, hdist⟩, hnodup, hnodes, hdels.trans (receipt_eq hmem haddr).symm⟩

/-- After the routes have been calculated from whole metrics, packets between routers take cheapest ways, meet
no node twice and are delivered once each, in whatever order the nodes handle them. -/
theorem unicast_delivered (h : net.recalculate = some net') (hwhole : net.WholeMetrics)
    {todo done : List (Arrival A)} (htodo : ∀ a ∈ todo, net.Unicast a)
    (hrun : Run (Step net'.next) todo done []) :
    ∃ way : Arrival A → List NodeAddressT,
      (∀ a ∈ todo, (a.node :: way a).Nodup ∧ ∃ d, Walk net.topology.Edge a.node (way a) a.packet.destNode d ∧
        Distance net.topology.Edge a.node a.packet.destNode d) ∧
      (done.map Arrival.node).Perm (todo.flatMap fun a => a.node :: way a) ∧
      ((done.flatMap net'.delivered).map fun r => (r.1, r.2.1, r.2.2.content)).Perm
        (todo.flatMap net.receipt) := by
  have hway : ∀ a : Arrival A, ∃ hops : List NodeAddressT, a ∈ todo →
      (∃ d, Walk net.topology.Edge a.node hops a.packet.destNode d ∧
        Distance net.topology.Edge a.node a.packet.destNode d) ∧ (a.node :: hops).Nodup ∧
      (family net'.next net'.hopsLeft a).map Arrival.node = a.node :: hops ∧
      ((family net'.next net'.hopsLeft a).flatMap net'.delivered).map (fun r => (r.1, r.2.1, r.2.2.content)) =
        net.receipt a := by
    intro a
    by_cases ha : a ∈ todo
    · obtain ⟨hops, hops_spec⟩ := unicast_way h hwhole (htodo a ha)
      exact ⟨hops, fun _ => hops_spec⟩
    · exact ⟨[], fun hmem => absurd hmem ha⟩
  choose way hway using hway
  have hperm := done_perm net'.hopsLeft_lt hrun
  refine ⟨way, fun a ha => ⟨(hway a ha).2.1, (hway a ha).1⟩, ?_, ?_⟩
  · apply (hperm.map Arrival.node).trans
    rw [List.map_flatMap]
    exact .of_eq (List.flatMap_congr fun a ha => (hway a ha).2.2.1)
  · apply ((hperm.flatMap_right net'.delivered).map _).trans
    rw [List.flatMap_assoc, List.map_flatMap]
    exact .of_eq (List.flatMap_congr fun a ha => (hway a ha).2.2.2)

end Routes

/-- A node that runs a routing daemon and an application 0. -/
def exampleStack (addr : NodeAddressT) (netOut : List (OutLink (WithTop ℚ))) : NetworkStack (WithTop ℚ) where
  nodeAddr := addr
  netOut := netOut
  toAppl := [PS_ROUTING_DAEMON, 0]
  routes := ∅
  metricFunc := true
  maxTTL := 16

/-- Three routers, of which the first and the last have a costly link. -/
def threeRouters : Network (WithTop ℚ) where
  nodes := [exampleStack 1 [⟨2, none⟩, ⟨3, some 5⟩], exampleStack 2 [⟨1, none⟩, ⟨3, none⟩],
    exampleStack 3 [⟨1, some 5⟩, ⟨2, none⟩]]
  maxTTL := 16
  nodup := by decide
  plain := by decide
  peers := by
    intro st hst link hlink
    simp only [List.mem_cons, List.not_mem_nil, or_false] at hst
    rcases hst with rfl | rfl | rfl <;>
      simp only [exampleStack, List.mem_cons, List.not_mem_nil, or_false] at hlink <;>
      rcases hlink with rfl | rfl <;> decide
  ttl := by
    intro st hst
    simp only [List.mem_cons, List.not_mem_nil, or_false] at hst
    rcases hst with rfl | rfl | rfl <;> rfl

theorem mem_threeRouters {u : NodeAddressT} (hu : u ∈ threeRouters.topology.nodes) : u ∈ [1, 2, 3] := by
  have hrouters : threeRouters.routers.map NetworkStack.nodeAddr = [1, 2, 3] := by decide +kernel
  rw [← hrouters]
  exact mem_topology.mp hu

/-- Every two routers have a link, with a metric of one or five. -/
theorem wholeMetrics_threeRouters : threeRouters.WholeMetrics where
  whole := by
    intro st hst link hlink _
    have hmem : st ∈ threeRouters.nodes := mem_of_router hst
    simp only [threeRouters, List.mem_cons, List.not_mem_nil, or_false] at hmem
    rcases hmem with rfl | rfl | rfl <;>
      simp only [exampleStack, List.mem_cons, List.not_mem_nil, or_false] at hlink <;>
      rcases hlink with rfl | rfl
    · exact ⟨1, by decide, by decide +kernel⟩
    · exact ⟨5, by decide, by decide +kernel⟩
    · exact ⟨1, by decide, by decide +kernel⟩
    · exact ⟨1, by decide, by decide +kernel⟩
    · exact ⟨5, by decide, by decide +kernel⟩
    · exact ⟨1, by decide, by decide +kernel⟩
  near := by
    have hlinks : ∀ u ∈ [1, 2, 3], ∀ v ∈ [1, 2, 3], u ≠ v →
        (threeRouters.topology.getLinkTo u v).any fun link => 0 + link.weight < Weight.whole (2 ^ 53) := by
      decide +kernel
    intro u hu v hv
    by_cases huv : u = v
    · subst huv
      exact ⟨[], 0, .start, by decide +kernel⟩
    · obtain ⟨link, hlink, hlt⟩ := (Option.any_eq_true _ _).mp
        (hlinks u (mem_threeRouters hu) v (mem_threeRouters hv) huv)
      exact ⟨[v], 0 + link.weight, .edge ⟨link, hlink, rfl⟩, of_decide_eq_true hlt⟩

/-- Application 0 of node 1 sends a packet to `dest`. -/
def exampleSend (dest : NodeAddressT) : Arrival Nat :=
  ⟨1, some 0, false, ⟨PS_NODE_UNKNOWN, PS_APP_UNKNOWN, dest, 0, false, PS_NODE_UNKNOWN, 0, 7⟩⟩

theorem unicast_delivered_threeRouters :
    ∃ net' done, threeRouters.recalculate = some net' ∧
      Run (Step net'.next) [exampleSend 3, exampleSend 2] done [] ∧ ∃ way : Arrival Nat → List NodeAddressT,
        (∀ a ∈ [exampleSend 3, exampleSend 2], (a.node :: way a).Nodup ∧
          ∃ d, Walk threeRouters.topology.Edge a.node (way a) a.packet.destNode d ∧
            Distance threeRouters.topology.Edge a.node a.packet.destNode d) ∧
        (done.map Arrival.node).Perm ([exampleSend 3, exampleSend 2].flatMap fun a => a.node :: way a) ∧
        ((done.flatMap net'.delivered).map fun r => (r.1, r.2.1, r.2.2.content)).Perm
          ([exampleSend 3, exampleSend 2].flatMap threeRouters.receipt) := by
  have hsome : threeRouters.recalculate.isSome := by decide +kernel
  obtain ⟨net', hnet⟩ := Option.isSome_iff_exists.mp hsome
  obtain ⟨done, todo, hrun, rfl⟩ := (inevitably_nil net'.hopsLeft_lt [exampleSend 3, exampleSend 2]).reaches
  refine ⟨net', done, hnet, hrun, unicast_delivered hnet wholeMetrics_threeRouters ?_ hrun⟩
  intro a ha
  simp only [List.mem_cons, List.not_mem_nil, or_false] at ha
  rcases ha with rfl | rfl <;> exact ⟨by decide +kernel, by decide +kernel, rfl, rfl, by decide +kernel⟩

end Unicast

end ComputerNetworking.Routing.Network
