import ComputerNetworking.Doubles
import ComputerNetworking.Topology
import ComputerNetworking.WorkPool

/-! Forwarding in the simulator: `common/NetworkStack.cc` and `support/DefaultMetric.cc` of ProtSim.

The packets in flight are a pool of arrivals. A stack handles one of them and hands on what it sends; the
events of different nodes may come in any order. Links lose nothing: the interface queue that a node of the
simulator has behind each gate `netOut` is left out, and with it what that queue drops when it is full. -/

namespace ComputerNetworking.Routing

open OrderedMap Transition WorkPool

abbrev ApplicationAddressT := Int

def PS_NODE_UNKNOWN : NodeAddressT := -1
def PS_DEST_BROADCAST_ALL : NodeAddressT := -2
def PS_DEST_BROADCAST_LIMIT : NodeAddressT := -3

def PS_DUMMY_APP : ApplicationAddressT := -1
def PS_APP_UNKNOWN : ApplicationAddressT := PS_DUMMY_APP
def PS_ROUTING_DAEMON : ApplicationAddressT := -2

/-- A packet; what the stacks only carry is its content. -/
structure NetworkPacket (A : Type) where
  srcNode : NodeAddressT
  srcAppl : ApplicationAddressT
  destNode : NodeAddressT
  destAppl : ApplicationAddressT
  alert : Bool
  lastNode : NodeAddressT
  TTL : Int
  content : A
  deriving DecidableEq

/-- A link out of a node: the node at its other end and its parameter `cost`, if it has one. -/
structure OutLink (R : Type) where
  peer : NodeAddressT
  cost : Option R

structure NetworkStack (R : Type) where
  nodeAddr : NodeAddressT
  /-- The links behind the gates `netOut`. -/
  netOut : List (OutLink R)
  /-- The addresses of the applications behind the gates `toAppl`. -/
  toAppl : List ApplicationAddressT
  routes : Std.TreeMap NodeAddressT Nat
  /-- `DefaultMetric` is set as the metric function. -/
  metricFunc : Bool
  maxTTL : Int

variable {A R : Type}

def DefaultMetric.getMetric [Doubles R] (link : OutLink R) : R :=
  let retval := link.cost.getD (Doubles.whole 1)
  if retval ≤ 0 then Doubles.whole 1 else retval

theorem DefaultMetric.getMetric_pos [Doubles R] (link : OutLink R) : 0 < DefaultMetric.getMetric link := by
  unfold DefaultMetric.getMetric
  dsimp only
  split
  · exact Doubles.whole_one_pos
  · next h => exact not_le.mp h

namespace NetworkStack

def getMetric [Doubles R] (st : NetworkStack R) (link : OutLink R) : R :=
  if st.metricFunc then DefaultMetric.getMetric link else Doubles.whole 1

theorem getMetric_pos [Doubles R] (st : NetworkStack R) (link : OutLink R) : 0 < st.getMetric link := by
  unfold getMetric
  split
  · exact DefaultMetric.getMetric_pos link
  · exact Doubles.whole_one_pos

/-- The metric of a link as its weight. -/
def weight [Doubles R] (st : NetworkStack R) (link : OutLink R) : Weight R :=
  ⟨st.getMetric link, (st.getMetric_pos link).le⟩

/-- The neighbour table, as `initialize` fills it: the last gate to a neighbour counts. -/
def neighbors (st : NetworkStack R) : Std.TreeMap NodeAddressT Nat :=
  st.netOut.zipIdx.foldl (fun table link => table.insert link.1.peer link.2) ∅

/-- The application table, as `initialize` fills it. -/
def applications (st : NetworkStack R) : Std.TreeMap ApplicationAddressT Nat :=
  st.toAppl.zipIdx.foldl
    (fun table appl => if appl.1 ≠ PS_DUMMY_APP then table.insert appl.1 appl.2 else table) ∅

def lookupNeighbor (st : NetworkStack R) (peer : NodeAddressT) : Option Nat := st.neighbors[peer]?

def lookupApplication (st : NetworkStack R) (dest : ApplicationAddressT) : Option Nat :=
  st.applications[dest]?

def lookupRoute (st : NetworkStack R) (dest : NodeAddressT) : Option Nat := st.routes[dest]?

end NetworkStack

/-- A packet that a stack sends, through a link or to an application. -/
inductive Output (A : Type) where
  | netOut (gate : Nat) (packet : NetworkPacket A)
  | toAppl (gate : Nat) (packet : NetworkPacket A)

namespace NetworkStack

def deliverLocally (st : NetworkStack R) (packet : NetworkPacket A) : List (Output A) :=
  match st.lookupApplication packet.destAppl with
  | none => []
  | some gate =>
      if packet.destNode = st.nodeAddr then
        [.toAppl gate { packet with destNode := PS_NODE_UNKNOWN, destAppl := PS_APP_UNKNOWN }]
      else [.toAppl gate packet]

def sendOut (st : NetworkStack R) (packet : NetworkPacket A) : List (Output A) :=
  if packet.TTL ≥ st.maxTTL then []
  else if packet.destNode = PS_NODE_UNKNOWN then []
  else if packet.destNode = PS_DEST_BROADCAST_ALL ∨ packet.destNode = PS_DEST_BROADCAST_LIMIT then
    let copy := { packet with lastNode := st.nodeAddr, TTL := packet.TTL + 1 }
    (st.netOut.zipIdx.filter fun link =>
      packet.destNode = PS_DEST_BROADCAST_ALL ∨ link.1.peer ≠ packet.lastNode).map
        fun link => .netOut link.2 copy
  else
    match st.lookupRoute packet.destNode with
    | none => []
    | some gate => [.netOut gate { packet with lastNode := st.nodeAddr, TTL := packet.TTL + 1 }]

/-- The addresses and the TTL of a packet of the local application `appl`; an alert packet keeps the source
it has. -/
def originate (st : NetworkStack R) (appl : ApplicationAddressT) (packet : NetworkPacket A) :
    NetworkPacket A :=
  let packet :=
    if packet.alert = false ∨ packet.srcNode = PS_NODE_UNKNOWN then
      { packet with srcNode := st.nodeAddr, TTL := 0 }
    else packet
  if packet.alert = false ∨ packet.srcAppl = PS_APP_UNKNOWN then { packet with srcAppl := appl }
  else packet

/-- A packet as the stack goes on with it. -/
def stamp (st : NetworkStack R) (fromAppl : Option ApplicationAddressT) (packet : NetworkPacket A) :
    NetworkPacket A :=
  match fromAppl with
  | none => packet
  | some appl => st.originate appl packet

/-- `fromAppl` is the application a packet comes from, if it comes through a gate `fromAppl`; `isLocal` is the
kind `eLOCAL_MESSAGE`. -/
def handleMessage (st : NetworkStack R) (fromAppl : Option ApplicationAddressT) (isLocal : Bool)
    (packet : NetworkPacket A) : List (Output A) :=
  let packet := st.stamp fromAppl packet
  if isLocal ∨ (packet.alert ∧ fromAppl = none) ∨ packet.destNode = st.nodeAddr then
    st.deliverLocally packet
  else st.sendOut packet

end NetworkStack

/-- A simulated network: its nodes have addresses of their own that are no special destinations, its links
lead to nodes, and every node has the `maxTTL` of the system module. -/
structure Network (R : Type) where
  nodes : List (NetworkStack R)
  maxTTL : Int
  nodup : (nodes.map NetworkStack.nodeAddr).Nodup
  plain : ∀ st ∈ nodes, st.nodeAddr ∉ [PS_NODE_UNKNOWN, PS_DEST_BROADCAST_ALL, PS_DEST_BROADCAST_LIMIT]
  peers : ∀ st ∈ nodes, ∀ link ∈ st.netOut, link.peer ∈ nodes.map NetworkStack.nodeAddr
  ttl : ∀ st ∈ nodes, st.maxTTL = maxTTL

/-- A packet at the stack that is to handle it. -/
structure Arrival (A : Type) where
  node : NodeAddressT
  fromAppl : Option ApplicationAddressT
  isLocal : Bool
  packet : NetworkPacket A
  deriving DecidableEq

namespace Network

def stackAt (net : Network R) (addr : NodeAddressT) : Option (NetworkStack R) :=
  net.nodes.find? fun st => st.nodeAddr = addr

/-- A packet sent through a link arrives at the other end of it: nothing is lost between them. -/
def arrive (st : NetworkStack R) : Output A → Option (Arrival A)
  | .netOut gate packet => st.netOut[gate]?.map fun link => ⟨link.peer, none, false, packet⟩
  | .toAppl _ _ => none

/-- The packets in flight that come of one that is handled. -/
def next (net : Network R) (a : Arrival A) : List (Arrival A) :=
  match net.stackAt a.node with
  | none => []
  | some st => (st.handleMessage a.fromAppl a.isLocal a.packet).filterMap (arrive st)

/-- The packets that applications get when a packet is handled: the node, the gate and the packet. -/
def delivered (net : Network R) (a : Arrival A) : List (NodeAddressT × Nat × NetworkPacket A) :=
  match net.stackAt a.node with
  | none => []
  | some st =>
      (st.handleMessage a.fromAppl a.isLocal a.packet).filterMap fun
        | .netOut _ _ => none
        | .toAppl gate packet => some (a.node, gate, packet)

/-! ### Stacks and their tables -/

theorem stackAt_of_mem (net : Network R) {st : NetworkStack R} (h : st ∈ net.nodes) :
    net.stackAt st.nodeAddr = some st :=
  find?_of_mem NetworkStack.nodeAddr net.nodup h

theorem mem_of_stackAt {net : Network R} {addr : NodeAddressT} {st : NetworkStack R}
    (h : net.stackAt addr = some st) : st ∈ net.nodes ∧ st.nodeAddr = addr :=
  ⟨List.mem_of_find?_eq_some h, by simpa using List.find?_some h⟩

/-- A table filled entry by entry holds entries only. -/
theorem getElem?_foldl_insert {α : Type} (entries : List α) (key : α → NodeAddressT) (val : α → Nat)
    (table : Std.TreeMap NodeAddressT Nat) (k : NodeAddressT) :
    (∀ x, (entries.foldl (fun table e => table.insert (key e) (val e)) table)[k]? = some x →
        (∃ e ∈ entries, key e = k ∧ val e = x) ∨ table[k]? = some x) ∧
      ((∃ e ∈ entries, key e = k) ∨ k ∈ table →
        k ∈ entries.foldl (fun table e => table.insert (key e) (val e)) table) := by
  induction entries generalizing table with
  | nil => simp
  | cons e entries ih =>
      obtain ⟨hfrom, hto⟩ := ih (table.insert (key e) (val e))
      rw [List.foldl_cons]
      constructor
      · intro x hx
        rcases hfrom x hx with ⟨e', he', hk, hv⟩ | hold
        · exact Or.inl ⟨e', by simp [he'], hk, hv⟩
        · rw [getElem?_insert] at hold
          split at hold
          · next hk => exact Or.inl ⟨e, by simp, hk, Option.some.inj hold⟩
          · exact Or.inr hold
      · intro h
        apply hto
        rw [Std.TreeMap.mem_insert, Std.LawfulEqCmp.compare_eq_iff_eq]
        rcases h with ⟨e', he', hk⟩ | hmem
        · rcases List.mem_cons.mp he' with rfl | he'
          · exact Or.inr (Or.inl hk)
          · exact Or.inl ⟨e', he', hk⟩
        · exact Or.inr (Or.inr hmem)

/-- A neighbour's gate leads to that neighbour. -/
theorem netOut_of_lookupNeighbor {st : NetworkStack R} {peer : NodeAddressT} {gate : Nat}
    (h : st.lookupNeighbor peer = some gate) : ∃ link, st.netOut[gate]? = some link ∧ link.peer = peer := by
  rcases (getElem?_foldl_insert st.netOut.zipIdx (fun e => e.1.peer) Prod.snd ∅ peer).1 gate h with
    ⟨e, he, hpeer, hgate⟩ | h
  · have hget := (List.mem_zipIdx_iff_getElem? (x := e)).mp he
    exact ⟨e.1, hgate ▸ hget, hpeer⟩
  · simp at h

theorem lookupNeighbor_isSome {st : NetworkStack R} {link : OutLink R} (h : link ∈ st.netOut) :
    (st.lookupNeighbor link.peer).isSome := by
  obtain ⟨i, hi⟩ := List.mem_iff_getElem?.mp h
  have hmem : (link, i) ∈ st.netOut.zipIdx := List.mem_zipIdx_iff_getElem?.mpr hi
  have hin := (getElem?_foldl_insert st.netOut.zipIdx (fun e => e.1.peer) Prod.snd ∅ link.peer).2
    (Or.inl ⟨(link, i), hmem, rfl⟩)
  exact Std.TreeMap.mem_iff_isSome_getElem?.mp hin

/-! ### What a stack sends -/

/-- A packet as the next node gets it. -/
def forwarded (u : NodeAddressT) (packet : NetworkPacket A) : NetworkPacket A :=
  { packet with lastNode := u, TTL := packet.TTL + 1 }

theorem mem_sendOut {st : NetworkStack R} {packet : NetworkPacket A} {out : Output A}
    (h : out ∈ st.sendOut packet) :
    packet.TTL < st.maxTTL ∧ ∃ gate, out = .netOut gate (forwarded st.nodeAddr packet) := by
  unfold NetworkStack.sendOut at h
  split at h
  · simp at h
  · next hTTL =>
      refine ⟨not_le.mp hTTL, ?_⟩
      split at h
      · simp at h
      · split at h
        · obtain ⟨link, -, rfl⟩ := List.mem_map.mp h
          exact ⟨link.2, rfl⟩
        · split at h
          · simp at h
          · next gate _ => exact ⟨gate, List.mem_singleton.mp h⟩

theorem arrive_deliverLocally (st : NetworkStack R) (packet : NetworkPacket A) :
    (st.deliverLocally packet).filterMap (arrive st) = [] := by
  unfold NetworkStack.deliverLocally
  split
  · rfl
  · split <;> rfl

/-- What comes of a packet in flight are copies of it at neighbours, with a TTL raised by one. -/
theorem next_cases {net : Network R} {a b : Arrival A} (h : b ∈ net.next a) :
    ∃ st, net.stackAt a.node = some st ∧ (st.stamp a.fromAppl a.packet).TTL < net.maxTTL ∧
      ∃ peer, b = ⟨peer, none, false, forwarded a.node (st.stamp a.fromAppl a.packet)⟩ := by
  unfold next at h
  split at h
  · simp at h
  · next st hst =>
      obtain ⟨hmem, haddr⟩ := mem_of_stackAt hst
      refine ⟨st, hst, ?_⟩
      unfold NetworkStack.handleMessage at h
      dsimp only at h
      split at h
      · rw [arrive_deliverLocally] at h
        simp at h
      · obtain ⟨out, hout, harr⟩ := List.mem_filterMap.mp h
        obtain ⟨hTTL, gate, rfl⟩ := mem_sendOut hout
        obtain ⟨link, -, rfl⟩ := Option.map_eq_some_iff.mp harr
        exact ⟨net.ttl st hmem ▸ hTTL, link.peer, by rw [haddr]⟩

/-- How often a packet may still be sent. -/
def hopsLeft (net : Network R) (a : Arrival A) : Nat :=
  if a.fromAppl = none then (net.maxTTL - a.packet.TTL).toNat
  else (net.maxTTL - min a.packet.TTL 0).toNat + 1

theorem hopsLeft_lt (net : Network R) (a : Arrival A) : ∀ b ∈ net.next a, net.hopsLeft b < net.hopsLeft a := by
  intro b hb
  obtain ⟨st, -, hTTL, peer, rfl⟩ := next_cases hb
  have hstamp : a.fromAppl = none ∧ (st.stamp a.fromAppl a.packet).TTL = a.packet.TTL ∨
      a.fromAppl ≠ none ∧ min a.packet.TTL 0 ≤ (st.stamp a.fromAppl a.packet).TTL := by
    cases happl : a.fromAppl with
    | none => exact Or.inl ⟨rfl, rfl⟩
    | some appl =>
        refine Or.inr ⟨by simp, ?_⟩
        simp only [NetworkStack.stamp, NetworkStack.originate]
        split <;> split <;> simp
  simp only [hopsLeft, if_pos, forwarded]
  rcases hstamp with ⟨hnone, heq⟩ | ⟨hsome, hle⟩
  · rw [if_pos hnone, heq]
    rw [heq] at hTTL
    omega
  · rw [if_neg hsome]
    omega

/-- Whatever the forwarding tables hold, every order of events comes to an end, and over links that lose
nothing the applications get the same packets in every order. -/
theorem forwarding_any_order (net : Network R) (todo : List (Arrival A)) :
    Inevitably (Step net.next) (fun s => s = []) todo ∧
      ∀ done done', Run (Step net.next) todo done [] → Run (Step net.next) todo done' [] →
        (done.flatMap net.delivered).Perm (done'.flatMap net.delivered) := by
  refine ⟨inevitably_nil net.hopsLeft_lt todo, fun done done' hrun hrun' => ?_⟩
  apply List.Perm.flatMap_right
  exact (done_perm net.hopsLeft_lt hrun).trans (done_perm net.hopsLeft_lt hrun').symm

/-- The stamp of a packet without alert leaves destination and content alone. -/
theorem stamp_quiet (st : NetworkStack R) (fromAppl : Option ApplicationAddressT) {packet : NetworkPacket A}
    (hquiet : packet.alert = false) :
    (st.stamp fromAppl packet).destNode = packet.destNode ∧
      (st.stamp fromAppl packet).destAppl = packet.destAppl ∧
      (st.stamp fromAppl packet).alert = false ∧ (st.stamp fromAppl packet).content = packet.content ∧
      (st.stamp fromAppl packet).TTL = if fromAppl = none then packet.TTL else 0 := by
  cases fromAppl with
  | none => simp [NetworkStack.stamp, hquiet]
  | some appl => simp [NetworkStack.stamp, NetworkStack.originate, hquiet]

end Network

end ComputerNetworking.Routing
