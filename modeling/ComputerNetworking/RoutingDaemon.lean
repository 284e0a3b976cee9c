import ComputerNetworking.Dijkstra
import ComputerNetworking.NetworkStack

/-! The routing daemon of the simulator: `routing/FakedRoutingDaemon.cc` of ProtSim. -/

namespace ComputerNetworking.Routing.Network

open OrderedMap ShortestPath

variable {R : Type}

/-- The nodes of the topology: those with a routing daemon. -/
def routers (net : Network R) : List (NetworkStack R) :=
  net.nodes.filter fun st => (st.lookupApplication PS_ROUTING_DAEMON).isSome

theorem nodup_routers (net : Network R) : (net.routers.map NetworkStack.nodeAddr).Nodup :=
  net.nodup.sublist (List.filter_sublist.map _)

theorem mem_of_router {net : Network R} {st : NetworkStack R} (h : st ∈ net.routers) : st ∈ net.nodes :=
  List.mem_of_mem_filter h

variable [Doubles R]

/-- The links between routers, with their weights. -/
def extractFromNetwork (net : Network R) : List (NodeAddressT × List (NodeAddressT × Weight R)) :=
  net.routers.map fun st =>
    (st.nodeAddr,
      (st.netOut.filter fun link => link.peer ∈ net.routers.map NetworkStack.nodeAddr).map fun link =>
        (link.peer, st.weight link))

def topology (net : Network R) : Topology (Weight R) := .ofNetwork net.extractFromNetwork

/-- `addRoute` for each entry of the routes; `none` is the failing assertion on the gate. -/
def addRoutes (st : NetworkStack R) (routes : PathMap (Weight R)) :
    List NodeAddressT → Std.TreeMap NodeAddressT Nat → Option (Std.TreeMap NodeAddressT Nat)
  | [], table => some table
  | dest :: dests, table =>
      match routes dest with
      | none => addRoutes st routes dests table
      | some link =>
          match st.lookupNeighbor link.destNode with
          | none => none
          | some gate => addRoutes st routes dests (table.insert dest gate)

/-- The forwarding table of a node after its daemon has calculated the routes. -/
def calculateRoutes (net : Network R) (st : NetworkStack R) : Option (Std.TreeMap NodeAddressT Nat) :=
  (doDijkstra net.topology st.nodeAddr).bind fun routes =>
    addRoutes st routes net.topology.getNodes st.routes

/-- A node when all daemons have calculated their routes. -/
def updateRoutes (net : Network R) (st : NetworkStack R) : NetworkStack R :=
  if (st.lookupApplication PS_ROUTING_DAEMON).isSome then
    { st with routes := (net.calculateRoutes st).getD st.routes }
  else st

@[simp] theorem updateRoutes_nodeAddr (net : Network R) (st : NetworkStack R) :
    (net.updateRoutes st).nodeAddr = st.nodeAddr := by
  unfold updateRoutes
  split <;> rfl

@[simp] theorem updateRoutes_netOut (net : Network R) (st : NetworkStack R) :
    (net.updateRoutes st).netOut = st.netOut := by
  unfold updateRoutes
  split <;> rfl

@[simp] theorem updateRoutes_toAppl (net : Network R) (st : NetworkStack R) :
    (net.updateRoutes st).toAppl = st.toAppl := by
  unfold updateRoutes
  split <;> rfl

@[simp] theorem updateRoutes_maxTTL (net : Network R) (st : NetworkStack R) :
    (net.updateRoutes st).maxTTL = st.maxTTL := by
  unfold updateRoutes
  split <;> rfl

/-- A link change is notified: every daemon calculates its routes. -/
def recalculate (net : Network R) : Option (Network R) :=
  if ∀ st ∈ net.routers, (net.calculateRoutes st).isSome then
    some
      { nodes := net.nodes.map net.updateRoutes
        maxTTL := net.maxTTL
        nodup := by
          have h := net.nodup
          rw [List.map_map]
          convert h using 2
          funext st
          simp
        plain := by
          intro st hst
          obtain ⟨st, hmem, rfl⟩ := List.mem_map.mp hst
          rw [updateRoutes_nodeAddr]
          exact net.plain st hmem
        peers := by
          intro st hst link hlink
          obtain ⟨st, hmem, rfl⟩ := List.mem_map.mp hst
          rw [updateRoutes_netOut] at hlink
          have h := net.peers st hmem link hlink
          rw [List.map_map]
          simpa using h
        ttl := by
          intro st hst
          obtain ⟨st, hmem, rfl⟩ := List.mem_map.mp hst
          rw [updateRoutes_maxTTL]
          exact net.ttl st hmem }
  else none

/-! ### Routes -/

theorem mem_topology {net : Network R} {addr : NodeAddressT} :
    addr ∈ net.topology.nodes ↔ addr ∈ net.routers.map NetworkStack.nodeAddr := by
  rw [topology, Topology.mem_ofNetwork]
  simp only [extractFromNetwork, List.mem_map, exists_exists_and_eq_and, List.mem_filter,
    decide_eq_true_eq]
  constructor
  · intro h
    obtain ⟨st, hst, rfl | ⟨link, hlink, rfl⟩⟩ := h
    · exact ⟨st, hst, rfl⟩
    · exact hlink.2
  · intro h
    obtain ⟨st, hst, rfl⟩ := h
    exact ⟨st, hst, Or.inl rfl⟩

/-- An edge of the topology is a link of a router, with its metric as the weight. -/
theorem exists_link_of_edge {net : Network R} {st : NetworkStack R} (hst : st ∈ net.routers) {v : NodeAddressT}
    {w : Weight R} (h : net.topology.Edge st.nodeAddr v w) :
    ∃ link ∈ st.netOut, link.peer = v ∧ w = st.weight link := by
  obtain ⟨edge, hedge, hw⟩ := h
  have hnodup : (net.extractFromNetwork.map Prod.fst).Nodup := by
    simpa [extractFromNetwork, Function.comp_def] using net.nodup_routers
  have hmem := List.mem_map_of_mem (f := fun st : NetworkStack R =>
    (st.nodeAddr,
      (st.netOut.filter fun link => link.peer ∈ net.routers.map NetworkStack.nodeAddr).map fun link =>
        (link.peer, st.weight link))) hst
  have hget := Topology.getLinkTo_ofNetwork hnodup hmem v
  rw [topology, hget] at hedge
  obtain ⟨x, hx, rfl⟩ := Option.map_eq_some_iff.mp hedge
  obtain ⟨y, hy, rfl⟩ := Option.map_eq_some_iff.mp hx
  obtain ⟨hin, hpeer⟩ := List.mem_filter.mp (List.mem_of_getLast? hy)
  obtain ⟨link, hlink, rfl⟩ := List.mem_map.mp hin
  exact ⟨link, List.mem_of_mem_filter hlink, by simpa using hpeer, hw.symm⟩

theorem edge_pos {net : Network R} {u v : NodeAddressT} {w : Weight R} (h : net.topology.Edge u v w) :
    0 < w := by
  obtain ⟨st, hst, rfl⟩ := List.mem_map.mp (mem_topology.mp h.mem.1)
  obtain ⟨link, -, -, rfl⟩ := exists_link_of_edge hst h
  exact st.getMetric_pos link

/-- What `addRoutes` leaves in the table. -/
theorem addRoutes_eq {st : NetworkStack R} {routes : PathMap (Weight R)} {dests : List NodeAddressT}
    {table table' : Std.TreeMap NodeAddressT Nat} (h : addRoutes st routes dests table = some table')
    (dest : NodeAddressT) :
    table'[dest]? =
      if dest ∈ dests then
        match routes dest with
        | none => table[dest]?
        | some link => st.lookupNeighbor link.destNode
      else table[dest]? := by
  induction dests generalizing table with
  | nil =>
      obtain rfl := Option.some.inj h
      simp
  | cons d dests ih =>
      rw [addRoutes] at h
      split at h
      · next hnone =>
          rw [ih h]
          by_cases hd : dest = d
          · subst hd
            simp [hnone]
          · simp [hd]
      · next link hlink =>
          split at h
          · simp at h
          · next gate hgate =>
              rw [ih h, getElem?_insert]
              by_cases hd : dest = d
              · subst hd
                simp [hlink, hgate]
              · have hd' : ¬d = dest := fun heq => hd heq.symm
                simp [hd, hd']

/-- `addRoutes` fails only for a route over a node that is no neighbour. -/
theorem addRoutes_isSome {st : NetworkStack R} {routes : PathMap (Weight R)}
    (hall : ∀ dest link, routes dest = some link → (st.lookupNeighbor link.destNode).isSome)
    (dests : List NodeAddressT) (table : Std.TreeMap NodeAddressT Nat) :
    (addRoutes st routes dests table).isSome := by
  induction dests generalizing table with
  | nil => rfl
  | cons d dests ih =>
      rw [addRoutes]
      split
      · exact ih table
      · next link hlink =>
          obtain ⟨gate, hgate⟩ := Option.isSome_iff_exists.mp (hall d link hlink)
          rw [hgate]
          exact ih _

/-- The daemon of a router succeeds exactly when the router reaches every other router at a finite cost. -/
theorem calculateRoutes_isSome_iff {net : Network R} {st : NetworkStack R} (hst : st ∈ net.routers) :
    (net.calculateRoutes st).isSome ↔
      ∀ v ∈ net.topology.nodes, v ≠ st.nodeAddr → Reachable net.topology.Edge st.nodeAddr v := by
  have hsrc : st.nodeAddr ∈ net.topology.nodes := mem_topology.mpr (List.mem_map_of_mem hst)
  rw [← doDijkstra_isSome_iff hsrc, calculateRoutes]
  cases hdo : doDijkstra net.topology st.nodeAddr with
  | none => simp
  | some routes =>
      simp only [Option.bind_some, Option.isSome_some, iff_true]
      apply addRoutes_isSome
      intro dest link hlink
      obtain ⟨hget, -⟩ := (doDijkstra_cheapest hsrc hdo).2 dest link hlink
      obtain ⟨out, hout, hpeer, -⟩ := exists_link_of_edge hst ⟨link, hget, rfl⟩
      rw [← hpeer]
      exact lookupNeighbor_isSome hout

/-- Every daemon succeeds exactly when every router reaches every other one at a finite cost, as doubles add
up. -/
theorem recalculate_isSome_iff (net : Network R) :
    net.recalculate.isSome ↔ ∀ u ∈ net.topology.nodes, ∀ v ∈ net.topology.nodes, v ≠ u →
      Reachable net.topology.Edge u v := by
  have hall : net.recalculate.isSome ↔ ∀ st ∈ net.routers, (net.calculateRoutes st).isSome := by
    unfold recalculate
    split
    · next h => exact ⟨fun _ => h, fun _ => rfl⟩
    · next h => exact ⟨fun hsome => absurd hsome (by simp), fun hyes => absurd hyes h⟩
  rw [hall]
  constructor
  · intro h u hu
    obtain ⟨st, hst, rfl⟩ := List.mem_map.mp (mem_topology.mp hu)
    exact (calculateRoutes_isSome_iff hst).mp (h st hst)
  · intro h st hst
    exact (calculateRoutes_isSome_iff hst).mpr (h _ (mem_topology.mpr (List.mem_map_of_mem hst)))

end ComputerNetworking.Routing.Network
