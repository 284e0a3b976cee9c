import ComputerNetworking.ServerModel

/-! The internal protocol of the servers, on messages instead of bytes.

`respond` is what a node does with a parsed internal message. A system whose servers wait for no answer
and whose datagrams all encode internal messages behaves like its nodes: every delivery there is one
here, and the tables stay as they are. -/

namespace ComputerNetworking.Dht

open Datagrams Transition

/-! ### Encoding -/

theorem recvInto_self (buffer : Nat → UInt8) (payload : Bytes) :
    recvInto buffer payload.length payload = payload := by
  refine List.ext_getElem (by simp [recvInto]) fun i _ hi => ?_
  simp [recvInto, List.getElem?_eq_getElem hi]

theorem uint16_of_bytes (n : UInt16) :
    UInt16.ofNat ((UInt8.ofNat (n.toNat / 256)).toNat * 256 + (UInt8.ofNat (n.toNat % 256)).toNat) =
      n := by
  have hlt := n.toNat_lt
  apply UInt16.toNat_inj.mp
  simp only [UInt16.toNat_ofNat', UInt8.toNat_ofNat']
  omega

theorem uint32_of_uint16 (n : UInt32) :
    UInt32.ofNat ((UInt16.ofNat (n.toNat / 65536)).toNat * 65536 +
      (UInt16.ofNat (n.toNat % 65536)).toNat) = n := by
  have hlt := n.toNat_lt
  apply UInt32.toNat_inj.mp
  simp only [UInt16.toNat_ofNat', UInt32.toNat_ofNat']
  omega

/-- A parsed message is the server it was filled with. -/
theorem parseMsg_fillIntlMsg (action : UInt8) (srv : ServerInfo) :
    parseMsg (fillIntlMsg action srv) = srv := by
  obtain ⟨⟨ip, port⟩, id⟩ := srv
  have hip : uint32At (fillIntlMsg action ⟨⟨ip, port⟩, id⟩) 1 = ip := by
    rw [uint32At]
    refine Eq.trans ?_ (uint32_of_uint16 ip)
    congr 4
    · exact uint16_of_bytes _
    · exact uint16_of_bytes _
  have hport : uint16At (fillIntlMsg action ⟨⟨ip, port⟩, id⟩) 5 = port := uint16_of_bytes port
  have hid : uint16At (fillIntlMsg action ⟨⟨ip, port⟩, id⟩) 7 = id := uint16_of_bytes id
  rw [parseMsg, hip, hport, hid]

/-! ### Messages -/

inductive Kind where
  | join
  | notify
  | stabilize
  deriving DecidableEq, Repr

def Kind.mask : Kind → UInt8
  | .join => joinMask
  | .notify => notifyMask
  | .stabilize => stabilizeMask

structure IntlMsg where
  kind : Kind
  srv : ServerInfo
  deriving DecidableEq, Repr

def IntlMsg.encode (m : IntlMsg) : Bytes := fillIntlMsg m.kind.mask m.srv

/-- A message from the server of the node. -/
def DhtNode.tell (node : DhtNode) (dest : ServerInfo) (m : IntlMsg) :
    Datagram SockaddrIn IntlMsg :=
  ⟨node.self.address, dest.address, m⟩

/-- The node with another next server. -/
def DhtNode.link (node : DhtNode) (next : ServerInfo) : DhtNode := { node with next := some next }

/-- What a server that accepts another one as its next sends to it. -/
def DhtNode.welcome (node : DhtNode) (next srv : ServerInfo) :
    List (Datagram SockaddrIn IntlMsg) :=
  [node.tell srv ⟨.notify, next⟩, node.tell srv ⟨.stabilize, node.self⟩]

/-- What a node does with a message: the node and what it sends. -/
def respond (node : DhtNode) : IntlMsg → DhtNode × List (Datagram SockaddrIn IntlMsg)
  | ⟨.join, srv⟩ =>
      match node.next with
      | none => (node.link srv, node.welcome node.self srv)
      | some next =>
          if isInRange node.self next srv || next.id == node.self.id then
            (node.link srv, node.welcome next srv)
          else (node, [node.tell next ⟨.join, srv⟩])
  | ⟨.notify, srv⟩ =>
      match node.next with
      | none => (node.link srv, [node.tell srv ⟨.stabilize, node.self⟩])
      | some next =>
          if isInRange node.self next srv && srv.id != node.self.id then
            (node.link srv, [node.tell srv ⟨.stabilize, node.self⟩])
          else (node, [])
  | ⟨.stabilize, src⟩ =>
      let prev := match node.prev with
        | none => src
        | some prev => if isInRange prev node.self src then src else prev
      ({ node with prev := some prev }, [node.tell src ⟨.notify, prev⟩])

section Respond

variable {node : DhtNode} {next srv : ServerInfo}

theorem respond_join_accept (hnext : node.next = some next)
    (hrange : isInRange node.self next srv = true) :
    respond node ⟨.join, srv⟩ = (node.link srv, node.welcome next srv) := by
  simp only [respond, hnext, hrange, Bool.true_or, if_true]

theorem respond_join_forward (hnext : node.next = some next)
    (hrange : isInRange node.self next srv = false) (hne : next.id ≠ node.self.id) :
    respond node ⟨.join, srv⟩ = (node, [node.tell next ⟨.join, srv⟩]) := by
  simp [respond, hnext, hrange, hne]

/-- A server with a next one ignores notices of itself and of servers outside its arc. -/
theorem respond_notify_ignore (hnext : node.next = some next)
    (hout : srv.id = node.self.id ∨ isInRange node.self next srv = false) :
    respond node ⟨.notify, srv⟩ = (node, []) := by
  rcases hout with h | h <;> simp [respond, hnext, h]

theorem respond_notify_accept (hnext : node.next = none) :
    respond node ⟨.notify, srv⟩ = (node.link srv, [node.tell srv ⟨.stabilize, node.self⟩]) := by
  simp only [respond, hnext]

theorem respond_stabilize_accept
    (hprev : ∀ prev, node.prev = some prev → isInRange prev node.self srv = true) :
    respond node ⟨.stabilize, srv⟩ =
      ({ node with prev := some srv }, [node.tell srv ⟨.notify, srv⟩]) := by
  unfold respond
  cases h : node.prev with
  | none => rfl
  | some prev => simp only [hprev prev h, if_true]

end Respond

/-- The code does with an encoded message what the node does with the message. -/
theorem handleIntlMsg_encode (node : DhtNode) (m : IntlMsg) :
    handleIntlMsg node m.encode =
      some ((respond node m).1, (respond node m).2.map (Datagram.map IntlMsg.encode)) := by
  obtain ⟨kind, srv⟩ := m
  have hrecv : recvInto zeroed intlMsgLen (IntlMsg.mk kind srv).encode = fillIntlMsg kind.mask srv :=
    recvInto_self zeroed (fillIntlMsg kind.mask srv)
  have haction : (fillIntlMsg kind.mask srv).getD 0 0 = internalMask ||| kind.mask := rfl
  have hparse := parseMsg_fillIntlMsg kind.mask srv
  simp only [handleIntlMsg, hrecv, haction]
  cases kind with
  | join =>
      rw [if_pos (by decide)]
      simp only [handleJoin, hparse, respond]
      cases node.next with
      | none => rfl
      | some next =>
          dsimp only
          split <;> rfl
  | notify =>
      rw [if_neg (by decide), if_pos (by decide)]
      simp only [handleNotify, hparse, respond]
      cases node.next with
      | none => rfl
      | some next =>
          dsimp only
          split <;> rfl
  | stabilize =>
      rw [if_neg (by decide), if_neg (by decide), if_pos (by decide)]
      simp only [handleStabilize, hparse, respond]
      rfl

/-! ### Networks of nodes -/

abbrev Chord := Network SockaddrIn DhtNode IntlMsg

/-- The reaction of a node. -/
def reactNode (_ : Unit) (node : DhtNode) (d : Datagram SockaddrIn IntlMsg) :
    Outcome SockaddrIn DhtNode IntlMsg :=
  .handled (respond node d.payload).1 (respond node d.payload).2

/-- The system of servers with the given tables whose nodes form the network. -/
def Chord.toSystem (tables : SockaddrIn → HashTable) (chord : Chord) : System :=
  chord.map (fun address node => ⟨node, tables address, none⟩) IntlMsg.encode

theorem react_encode (heap : Nat → UInt8) (node : DhtNode) (tbl : HashTable)
    (d : Datagram SockaddrIn IntlMsg) :
    react heap ⟨node, tbl, none⟩ (d.map IntlMsg.encode) =
      (reactNode () node d).map (⟨·, tbl, none⟩) IntlMsg.encode := by
  have hinternal : internalMask &&& (d.map IntlMsg.encode).payload.getD 0 0 ≠ 0 := by
    change internalMask &&& (internalMask ||| d.payload.kind.mask) ≠ 0
    cases d.payload.kind <;> decide
  have hhandle : handleIntlMsg node (d.map IntlMsg.encode).payload = _ :=
    handleIntlMsg_encode node d.payload
  simp only [react]
  rw [if_pos hinternal, hhandle]
  rfl

/-- One delivery of a message between nodes. -/
abbrev ChordStep : Chord → Unit × Datagram SockaddrIn IntlMsg → Chord → Prop :=
  Deliver reactNode

theorem Chord.step_of_serverStep (tables : SockaddrIn → HashTable) {chord : Chord}
    {heap : Nat → UInt8} {d : Datagram SockaddrIn Bytes} {sys : System}
    (h : ServerStep (chord.toSystem tables) (heap, d) sys) :
    ∃ m next, ChordStep chord ((), m) next ∧ d = m.map IntlMsg.encode ∧ sys = next.toSystem tables := by
  obtain ⟨⟨⟩, m, next, hstep, hd, heq⟩ :=
    h.of_map fun heap node d => ⟨(), react_encode heap node (tables d.dst) d⟩
  exact ⟨m, next, hstep, hd, heq⟩

theorem Chord.serverStep_of_step (tables : SockaddrIn → HashTable) {chord next : Chord}
    {m : Datagram SockaddrIn IntlMsg} (h : ChordStep chord ((), m) next) :
    ∃ heap, ServerStep (chord.toSystem tables) (heap, m.map IntlMsg.encode) (next.toSystem tables) :=
  h.map (fun address node => Server.mk node (tables address) none)
    IntlMsg.encode fun _ node d => ⟨zeroed, react_encode zeroed node (tables d.dst) d⟩

/-- What is inevitable among the nodes is inevitable among their servers, and the tables stay as they
are. -/
theorem Chord.inevitably (tables : SockaddrIn → HashTable) {goal : Chord → Prop} {chord : Chord}
    (h : Inevitably ChordStep goal chord) :
    Inevitably ServerStep (fun sys => ∃ c : Chord, goal c ∧ sys = c.toSystem tables)
      (chord.toSystem tables) := by
  refine h.map (Chord.toSystem tables) (fun c a next hstep => ?_) (fun c b sys hstep => ?_)
    fun c hc => ⟨c, hc, rfl⟩
  · obtain ⟨heap, hserver⟩ := Chord.serverStep_of_step tables hstep
    exact ⟨_, hserver⟩
  · obtain ⟨m, next, hnext, -, heq⟩ := Chord.step_of_serverStep tables hstep
    exact ⟨_, next, hnext, heq⟩

end ComputerNetworking.Dht
