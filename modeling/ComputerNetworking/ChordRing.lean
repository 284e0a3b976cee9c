import ComputerNetworking.ChordProtocol
import ComputerNetworking.Clockwise

/-! Rings of servers: ownership of keys and routing.

A ring is given by the list of its servers in the order of their ids. The proofs use it as a set of
servers whose next pointers are `IsNext`; then the ranges of the code are arcs of the circle of the
65536 ids. -/

namespace ComputerNetworking.Dht

open Clockwise

/-- The place of a server on the circle of ids. -/
def ServerInfo.position (srv : ServerInfo) : Fin UInt16.size := srv.id.toFin

/-- The next pointers of the running servers form one cycle through `ring`, which lists them in the
order of their ids. -/
structure ClockwiseRing (nodes : SockaddrIn → Option DhtNode) (ring : List ServerInfo) : Prop where
  sorted : ring.Pairwise fun a b => a.id < b.id
  running : ∀ address node, nodes address = some node → ∃ srv ∈ ring, srv.address = address
  next : ∀ i srv, ring[i]? = some srv → ∃ node, nodes srv.address = some node ∧
    node.self = srv ∧ node.next = ring[(i + 1) % ring.length]?

/-- The running servers are those of `M`, each at its address, with distinct ids. -/
structure Members (nodes : SockaddrIn → Option DhtNode) (M : Finset ServerInfo) : Prop where
  distinct : Set.InjOn ServerInfo.position M
  node_of_mem : ∀ srv ∈ M, ∃ node, nodes srv.address = some node ∧ node.self = srv
  mem_of_node : ∀ address node, nodes address = some node →
    node.self ∈ M ∧ node.self.address = address

/-- The next pointer of every server is the first other one clockwise from it. -/
structure Linked (nodes : SockaddrIn → Option DhtNode) (M : Finset ServerInfo) : Prop
    extends Members nodes M where
  next : ∀ address node, nodes address = some node →
    ∃ y, node.next = some y ∧ IsNext ServerInfo.position M node.self y

/-! ### Ranges are arcs -/

theorem sub_lt_sub_iff (start stop val : UInt16) :
    val - start < stop - start ↔
      offset start.toFin val.toFin < offset start.toFin stop.toFin := by
  rw [UInt16.lt_iff_toNat_lt, offset, offset, ← UInt16.toFin_sub, ← UInt16.toFin_sub]
  rfl

theorem isInRange_iff (start stop val : ServerInfo) :
    isInRange start stop val = true ↔
      offset start.position val.position < offset start.position stop.position := by
  rw [isInRange, decide_eq_true_iff]
  exact sub_lt_sub_iff _ _ _

theorem isKeyInRange_iff {node : DhtNode} {next : ServerInfo} (h : node.next = some next)
    (key : Bytes) : isKeyInRange node key = true ↔
      offset node.self.position (stringHash key).toFin <
        offset node.self.position next.position := by
  rw [isKeyInRange, h]
  dsimp only
  rw [decide_eq_true_iff]
  exact sub_lt_sub_iff _ _ _

/-- A server without a next one owns every key. -/
theorem isKeyInRange_of_next_none {node : DhtNode} (h : node.next = none) (key : Bytes) :
    isKeyInRange node key = true := by
  rw [isKeyInRange, h]

section Rings

variable {nodes : SockaddrIn → Option DhtNode} {M : Finset ServerInfo} {ring : List ServerInfo}

theorem Members.node_eq (h : Members nodes M) {srv : ServerInfo} (hsrv : srv ∈ M) {node : DhtNode}
    (hnode : nodes srv.address = some node) : node.self = srv := by
  obtain ⟨node', hnode', hself⟩ := h.node_of_mem srv hsrv
  rw [hnode] at hnode'
  cases hnode'
  exact hself

theorem ClockwiseRing.linked (h : ClockwiseRing nodes ring) (hlen : 2 ≤ ring.length) :
    Linked nodes ring.toFinset where
  distinct := by
    intro a ha b hb heq
    obtain ⟨i, hi⟩ := List.mem_iff_getElem?.mp (List.mem_toFinset.mp ha)
    obtain ⟨j, hj⟩ := List.mem_iff_getElem?.mp (List.mem_toFinset.mp hb)
    rcases Nat.lt_trichotomy i j with hlt | rfl | hgt
    · have := val_lt_of_sorted ServerInfo.position h.sorted hi hj hlt
      omega
    · exact Option.some.inj (hi.symm.trans hj)
    · have := val_lt_of_sorted ServerInfo.position h.sorted hj hi hgt
      omega
  node_of_mem := fun srv hsrv => by
    obtain ⟨i, hi⟩ := List.mem_iff_getElem?.mp (List.mem_toFinset.mp hsrv)
    obtain ⟨node, hnode, hself, -⟩ := h.next i srv hi
    exact ⟨node, hnode, hself⟩
  mem_of_node := fun address node hnode => by
    obtain ⟨srv, hsrv, rfl⟩ := h.running address node hnode
    obtain ⟨i, hi⟩ := List.mem_iff_getElem?.mp hsrv
    obtain ⟨node', hnode', hself, -⟩ := h.next i srv hi
    rw [hnode] at hnode'
    cases hnode'
    rw [hself]
    exact ⟨List.mem_toFinset.mpr hsrv, rfl⟩
  next := fun address node hnode => by
    obtain ⟨srv, hsrv, rfl⟩ := h.running address node hnode
    obtain ⟨i, hi⟩ := List.mem_iff_getElem?.mp hsrv
    obtain ⟨node', hnode', hself, hnext⟩ := h.next i srv hi
    rw [hnode] at hnode'
    cases hnode'
    have hin : (i + 1) % ring.length < ring.length := Nat.mod_lt _ (by omega)
    have hy : ring[(i + 1) % ring.length]? = some ring[(i + 1) % ring.length] :=
      List.getElem?_eq_getElem hin
    refine ⟨_, hnext.trans hy, ?_⟩
    rw [hself]
    exact isNext_of_sorted h.sorted hlen hi hy

theorem ClockwiseRing.nodup (h : ClockwiseRing nodes ring) : ring.Nodup :=
  h.sorted.imp fun {a b} hlt heq => by
    rw [heq] at hlt
    exact UInt16.lt_irrefl _ hlt

/-- Different servers of a ring have different next ones. -/
theorem ClockwiseRing.next_injective (h : ClockwiseRing nodes ring) {a b : SockaddrIn}
    {node node' : DhtNode} (ha : nodes a = some node) (hb : nodes b = some node')
    (hnext : node.next = node'.next) : a = b := by
  obtain ⟨srv, hsrv, rfl⟩ := h.running a node ha
  obtain ⟨srv', hsrv', rfl⟩ := h.running b node' hb
  obtain ⟨i, hi⟩ := List.mem_iff_getElem?.mp hsrv
  obtain ⟨j, hj⟩ := List.mem_iff_getElem?.mp hsrv'
  obtain ⟨old, hold, -, hinext⟩ := h.next i srv hi
  obtain ⟨old', hold', -, hjnext⟩ := h.next j srv' hj
  rw [ha] at hold
  cases hold
  rw [hb] at hold'
  cases hold'
  have hilt := (List.getElem?_eq_some_iff.mp hi).1
  have hjlt := (List.getElem?_eq_some_iff.mp hj).1
  have hmod : (i + 1) % ring.length = (j + 1) % ring.length :=
    (List.getElem?_inj (Nat.mod_lt _ (by omega)) h.nodup).mp (hinext.symm.trans (hnext.trans hjnext))
  obtain rfl : i = j := (Nat.ModEq.add_right_cancel' 1 hmod).eq_of_lt_of_lt hilt hjlt
  exact congrArg _ (Option.some.inj (hi.symm.trans hj))

theorem Linked.clockwiseRing (h : Linked nodes M) (hcard : 2 ≤ M.card) :
    ∃ ring : List ServerInfo, ring.toFinset = M ∧ ring.length = M.card ∧
      ClockwiseRing nodes ring := by
  obtain ⟨ring, rfl, hsorted⟩ := exists_sorted M h.distinct
  have hnodup : ring.Nodup := hsorted.imp fun {a b} hlt heq => by
    rw [heq] at hlt
    exact lt_irrefl _ hlt
  have hlen : ring.length = ring.toFinset.card := (List.toFinset_card_of_nodup hnodup).symm
  refine ⟨ring, rfl, hlen, hsorted, fun address node hnode => ?_, fun i srv hi => ?_⟩
  · obtain ⟨hmem, haddress⟩ := h.mem_of_node address node hnode
    exact ⟨node.self, List.mem_toFinset.mp hmem, haddress⟩
  · have hsrv := List.mem_toFinset.mpr (List.mem_of_getElem? hi)
    obtain ⟨node, hnode, hself⟩ := h.node_of_mem srv hsrv
    obtain ⟨y, hnext, hy⟩ := h.next _ node hnode
    have hin : (i + 1) % ring.length < ring.length := Nat.mod_lt _ (by omega)
    have hz : ring[(i + 1) % ring.length]? = some ring[(i + 1) % ring.length] :=
      List.getElem?_eq_getElem hin
    refine ⟨node, hnode, hself, ?_⟩
    rw [hnext, hz]
    exact congrArg some (hy.unique h.distinct (hself ▸ isNext_of_sorted hsorted (by omega) hi hz))

/-! ### Routing -/

/-- The server owns the key. -/
def Owns (nodes : SockaddrIn → Option DhtNode) (srv : ServerInfo) (key : Bytes) : Prop :=
  ∃ node, nodes srv.address = some node ∧ isKeyInRange node key = true

/-- A request for the key that is sent to a server is forwarded the given number of times along the
next pointers, up to a server that processes it. -/
inductive Forwarded (nodes : SockaddrIn → Option DhtNode) (key : Bytes) :
    ServerInfo → Nat → ServerInfo → Prop where
  | process {srv : ServerInfo} {node : DhtNode} (hnode : nodes srv.address = some node)
      (hkey : isKeyInRange node key = true) : Forwarded nodes key srv 0 srv
  | forward {srv next owner : ServerInfo} {node : DhtNode} {k : Nat}
      (hnode : nodes srv.address = some node) (hkey : isKeyInRange node key = false)
      (hnext : node.next = some next) (htail : Forwarded nodes key next k owner) :
      Forwarded nodes key srv (k + 1) owner

theorem Linked.isKeyInRange_iff (h : Linked nodes M) {address : SockaddrIn} {node : DhtNode}
    (hnode : nodes address = some node) (key : Bytes) : isKeyInRange node key = true ↔
      IsOwner ServerInfo.position M node.self (stringHash key).toFin := by
  obtain ⟨y, hnext, hy⟩ := h.next address node hnode
  rw [Dht.isKeyInRange_iff hnext]
  exact hy.lt_iff_isOwner h.distinct (h.mem_of_node address node hnode).1

theorem Linked.owns_iff (h : Linked nodes M) {srv : ServerInfo} (hsrv : srv ∈ M) (key : Bytes) :
    Owns nodes srv key ↔ IsOwner ServerInfo.position M srv (stringHash key).toFin := by
  obtain ⟨node, hnode, hself⟩ := h.node_of_mem srv hsrv
  have hiff := h.isKeyInRange_iff hnode key
  rw [hself] at hiff
  rw [← hiff]
  constructor
  · rintro ⟨node', hnode', hkey⟩
    rw [hnode] at hnode'
    cases hnode'
    exact hkey
  · exact fun hkey => ⟨node, hnode, hkey⟩

/-- A request reaches the owner of its key; each forward brings it closer. -/
theorem Linked.forwarded (h : Linked nodes M) (key : Bytes) {srv : ServerInfo} (hsrv : srv ∈ M) :
    ∃ k owner, k ≤ (closer ServerInfo.position M srv (stringHash key).toFin).card ∧ owner ∈ M ∧
      Owns nodes owner key ∧ Forwarded nodes key srv k owner := by
  induction hm : (closer ServerInfo.position M srv (stringHash key).toFin).card using
    Nat.strongRecOn generalizing srv with
  | ind m ih =>
      obtain ⟨node, hnode, hself⟩ := h.node_of_mem srv hsrv
      cases hkey : isKeyInRange node key with
      | true => exact ⟨0, srv, Nat.zero_le m, hsrv, ⟨node, hnode, hkey⟩, .process hnode hkey⟩
      | false =>
          obtain ⟨y, hnext, hy⟩ := h.next _ node hnode
          rw [hself] at hy
          have hout : ¬offset srv.position (stringHash key).toFin < offset srv.position y.position := by
            have hiff := Dht.isKeyInRange_iff hnext key
            rw [hself, hkey] at hiff
            simpa using hiff
          have hlt := hy.card_closer_lt h.distinct hsrv hout
          obtain ⟨k, owner, hk, howner, howns, htail⟩ := ih _ (hm ▸ hlt) hy.mem rfl
          exact ⟨k + 1, owner, by omega, howner, howns, .forward hnode hkey hnext htail⟩

end Rings

/-- **Ownership and routing.** In every ring of two or more servers, every key is in the range of
exactly one server, and a request for it that is sent to any server is forwarded at most `n - 1` times
before it reaches that server. A server without a next one owns every key. -/
theorem key_ownership (nodes : SockaddrIn → Option DhtNode) (ring : List ServerInfo)
    (h : ClockwiseRing nodes ring) (hlen : 2 ≤ ring.length) (key : Bytes) :
    (∃! srv, srv ∈ ring ∧ Owns nodes srv key) ∧
      (∀ start ∈ ring, ∃ k owner, k ≤ ring.length - 1 ∧ owner ∈ ring ∧ Owns nodes owner key ∧
        Forwarded nodes key start k owner) ∧
      ∀ node : DhtNode, node.next = none → isKeyInRange node key = true := by
  have hlinked := h.linked hlen
  have hcard : ring.toFinset.card ≤ ring.length := List.toFinset_card_le ring
  refine ⟨?_, fun start hstart => ?_, fun node hnode => isKeyInRange_of_next_none hnode key⟩
  · have hne : ring.toFinset.Nonempty := by
      rw [List.toFinset_nonempty_iff]
      rintro rfl
      simp at hlen
    obtain ⟨srv, hown, huniq⟩ := existsUnique_isOwner hlinked.distinct hne (stringHash key).toFin
    refine ⟨srv, ⟨List.mem_toFinset.mp hown.1, (hlinked.owns_iff hown.1 key).mpr hown⟩, ?_⟩
    rintro other ⟨hmem, hother⟩
    have hmem := List.mem_toFinset.mpr hmem
    exact huniq other ((hlinked.owns_iff hmem key).mp hother)
  · have hmem := List.mem_toFinset.mpr hstart
    obtain ⟨k, owner, hk, howner, howns, hforwarded⟩ := hlinked.forwarded key hmem
    have hlt := card_closer_lt ServerInfo.position hmem (stringHash key).toFin
    exact ⟨k, owner, by omega, List.mem_toFinset.mp howner, howns, hforwarded⟩

/-- The servers of the test script: on one host, with the ports from 1024 on. -/
def testServer (id : UInt16) : ServerInfo := ⟨⟨0x7f000001, 1024 + id⟩, id⟩

/-- A ring of two servers. -/
def twoServers (address : SockaddrIn) : Option DhtNode :=
  if address = (testServer 0).address then some ⟨testServer 0, some (testServer 1), some (testServer 1)⟩
  else if address = (testServer 1).address then
    some ⟨testServer 1, some (testServer 0), some (testServer 0)⟩
  else none

theorem twoServers_ring : ClockwiseRing twoServers [testServer 0, testServer 1] where
  sorted := by decide
  running := by
    intro address node hnode
    unfold twoServers at hnode
    split at hnode
    · exact ⟨testServer 0, by simp, Eq.symm ‹_›⟩
    · split at hnode
      · exact ⟨testServer 1, by simp, Eq.symm ‹_›⟩
      · cases hnode
  next := by
    intro i srv hi
    match i with
    | 0 =>
        cases hi
        exact ⟨⟨testServer 0, some (testServer 1), some (testServer 1)⟩, by decide, rfl, rfl⟩
    | 1 =>
        cases hi
        exact ⟨⟨testServer 1, some (testServer 0), some (testServer 0)⟩, by decide, rfl, rfl⟩
    | i + 2 => simp at hi

theorem key_ownership_twoServers :
    ∃ k owner, k ≤ 1 ∧ owner ∈ [testServer 0, testServer 1] ∧ Owns twoServers owner [107] ∧
      Forwarded twoServers [107] (testServer 0) k owner :=
  (key_ownership twoServers [testServer 0, testServer 1] twoServers_ring (by decide) [107]).2.1
    (testServer 0) (by simp)

end ComputerNetworking.Dht
