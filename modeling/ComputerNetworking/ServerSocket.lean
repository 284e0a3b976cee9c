import ComputerNetworking.ServerExchange

/-! The socket of a server: what one call of `handle_msg` takes from its receive queue.

The queue holds the datagrams that have arrived and, behind them, those that arrive during the call.
A call handles the first one. When it forwards a request it waits for the answer, and takes the next
datagram that arrives for it. -/

namespace ComputerNetworking.Dht

open Datagrams

/-- What a call of `handle_msg` comes to. -/
inductive CallResult where
  | blocked
  | ended
  | returned (node : DhtNode) (ht : HashTable) (queue sends : List (Datagram SockaddrIn Bytes))

/-- `handle_msg`; `heap` and `heap'` are the contents of the buffers of the two datagrams. -/
def handleMsg (heap heap' : Nat → UInt8) (node : DhtNode) (ht : HashTable) :
    List (Datagram SockaddrIn Bytes) → CallResult
  | [] => .blocked
  | d :: queue =>
      match react heap ⟨node, ht, none⟩ d with
      | .ended => .ended
      | .unread => .returned node ht (d :: queue) []
      | .handled server sends =>
          match server.pending, queue with
          | none, queue => .returned server.node server.ht queue sends
          | some _, [] => .blocked
          | some request, answer :: queue =>
              match relayResponse heap' server request answer with
              | .handled server relayed => .returned server.node server.ht queue (sends ++ relayed)
              | .ended => .ended
              | .unread => .returned server.node server.ht (answer :: queue) sends

/-! ### Progress -/

section Progress

variable {heap heap' : Nat → UInt8} {node : DhtNode} {ht : HashTable} {d : Datagram SockaddrIn Bytes}
  {queue : List (Datagram SockaddrIn Bytes)}

theorem relayResponse_ne_unread (server : Server) (request : Pending) :
    relayResponse heap server request d ≠ .unread := by
  rw [relayResponse]
  split
  · rintro ⟨⟩
  · split <;> rintro ⟨⟩

/-- A server leaves exactly the external datagrams unread that are shorter than a header. -/
theorem react_eq_unread_iff : react heap ⟨node, ht, none⟩ d = .unread ↔
    internalMask &&& d.payload.getD 0 0 = 0 ∧ d.payload.length < extHeaderLen := by
  unfold react
  dsimp only
  split
  · rename_i hinternal
    refine iff_of_false ?_ fun h => hinternal h.1
    split <;> rintro ⟨⟩
  · rename_i hexternal
    rw [not_not] at hexternal
    unfold handleExtMsg
    dsimp only
    split
    · rename_i hshort
      exact iff_of_true rfl ⟨hexternal, hshort⟩
    · rename_i hcomplete
      refine iff_of_false ?_ fun h => hcomplete h.2
      split
      · rintro ⟨⟩
      · split <;> rintro ⟨⟩

/-- A datagram that is left unread stays at the head of the queue, and nothing is sent. -/
theorem handleMsg_unread (h : react heap ⟨node, ht, none⟩ d = .unread) :
    handleMsg heap heap' node ht (d :: queue) = .returned node ht (d :: queue) [] := by
  rw [handleMsg, h]

/-- A call that reads the datagram at the head leaves datagrams behind it in the queue only. -/
theorem handleMsg_suffix (h : react heap ⟨node, ht, none⟩ d ≠ .unread) {node' : DhtNode} {ht' : HashTable}
    {queue' sends : List (Datagram SockaddrIn Bytes)}
    (hcall : handleMsg heap heap' node ht (d :: queue) = .returned node' ht' queue' sends) :
    queue' <:+ queue := by
  rw [handleMsg] at hcall
  split at hcall
  · cases hcall
  · exact absurd ‹_› h
  · split at hcall
    · cases hcall
      exact List.suffix_rfl
    · cases hcall
    · split at hcall
      · cases hcall
        exact List.suffix_cons _ _
      · cases hcall
      · exact absurd ‹_› (relayResponse_ne_unread _ _)

/-- **Progress of a server.** A call that returns has removed the datagram at the head of the queue if and
only if the datagram is internal or has a complete header. -/
theorem handleMsg_removes_iff (heap heap' : Nat → UInt8) (node : DhtNode) (ht : HashTable)
    (d : Datagram SockaddrIn Bytes) (queue : List (Datagram SockaddrIn Bytes)) :
    (∀ node' ht' queue' sends,
      handleMsg heap heap' node ht (d :: queue) = .returned node' ht' queue' sends → queue' <:+ queue) ↔
    internalMask &&& d.payload.getD 0 0 ≠ 0 ∨ extHeaderLen ≤ d.payload.length := by
  constructor
  · intro h
    by_contra hshort
    rw [not_or, not_not, not_le] at hshort
    have hsuffix := h _ _ _ _ (handleMsg_unread (react_eq_unread_iff.mpr hshort))
    exact absurd hsuffix.length_le (by simp)
  · intro h node' ht' queue' sends hcall
    refine handleMsg_suffix (fun hunread => ?_) hcall
    obtain ⟨hexternal, hshort⟩ := react_eq_unread_iff.mp hunread
    exact h.elim (fun hinternal => hinternal hexternal) fun hle => absurd hshort (not_lt.mpr hle)

/-- An empty datagram is never removed. -/
theorem handleMsg_keeps_empty :
    handleMsg zeroed zeroed ⟨testServer 0, none, none⟩ htCreate
        [⟨(testServer 1).address, (testServer 0).address, []⟩] =
      .returned ⟨testServer 0, none, none⟩ htCreate
        [⟨(testServer 1).address, (testServer 0).address, []⟩] [] ∧
    ¬∀ heap heap' node ht d queue node' ht' queue' sends,
      handleMsg heap heap' node ht (d :: queue) = .returned node' ht' queue' sends →
        queue' <:+ queue := by
  have hkeeps : handleMsg zeroed zeroed ⟨testServer 0, none, none⟩ htCreate
      [⟨(testServer 1).address, (testServer 0).address, []⟩] =
        .returned ⟨testServer 0, none, none⟩ htCreate
          [⟨(testServer 1).address, (testServer 0).address, []⟩] [] :=
    handleMsg_unread (react_eq_unread_iff.mpr (by decide))
  refine ⟨hkeeps, fun h => ?_⟩
  exact absurd (h _ _ _ _ _ _ _ _ _ _ hkeeps).length_le (by decide)

end Progress

/-! ### Relayed replies -/

/-- Who has sent a datagram that arrives while a server waits for an answer: the next server, as its reply
to the request that was forwarded, or anyone else. -/
inductive Origin where
  | reply
  | other
  deriving DecidableEq, Repr

structure Arrival where
  origin : Origin
  datagram : Datagram SockaddrIn Bytes
  deriving DecidableEq, Repr

/-- The server forwards the request and waits. -/
def Forwards (heap : Nat → UInt8) (node : DhtNode) (ht : HashTable) (d : Datagram SockaddrIn Bytes) : Prop :=
  ∃ request sends, react heap ⟨node, ht, none⟩ d = .handled ⟨node, ht, some request⟩ sends

section Relay

variable {heap heap' : Nat → UInt8} {node : DhtNode} {ht : HashTable} {d : Datagram SockaddrIn Bytes}

/-- The request that a server forwards has a complete header, and is sent on with its transaction id. -/
theorem react_forwards {request : Pending} {sends : List (Datagram SockaddrIn Bytes)}
    (h : react heap ⟨node, ht, none⟩ d = .handled ⟨node, ht, some request⟩ sends) :
    request.msg.getD 1 0 = d.payload.getD 1 0 := by
  unfold react at h
  dsimp only at h
  split at h
  · split at h
    · cases h
    · cases h
  · unfold handleExtMsg at h
    dsimp only at h
    split at h
    · cases h
    · rename_i hcomplete
      split at h
      · simp at h
      · split at h
        · cases h
        · cases h
          have hlt : 1 < d.payload.length := Nat.lt_of_lt_of_le (by decide) (not_lt.mp hcomplete)
          rw [recvInto_getD _ _ (by rw [extMsgLen, extHeaderLen]; omega), List.getD_eq_getElem _ _ hlt,
            List.getD_eq_getElem _ _ hlt]

/-- The answer is relayed exactly when it passes the two assertions; else the server ends. -/
theorem relayResponse_handled_iff (server : Server) (request : Pending) :
    (∃ server' sends, relayResponse heap server request d = .handled server' sends) ↔
      d.payload.getD 0 0 &&& internalMask = 0 ∧ d.payload.getD 1 0 = request.msg.getD 1 0 := by
  have hzero := recvHeader_getD d.payload (show 0 < extHeaderLen by decide)
  have hone := recvHeader_getD d.payload (show 1 < extHeaderLen by decide)
  unfold relayResponse
  dsimp only
  rw [hzero, hone]
  by_cases hinternal : d.payload.getD 0 0 &&& internalMask ≠ 0
  · rw [if_pos hinternal]
    exact iff_of_false (by rintro ⟨server', sends, ⟨⟩⟩) fun h => hinternal h.1
  · rw [if_neg hinternal]
    rw [not_not] at hinternal
    by_cases hid : d.payload.getD 1 0 ≠ request.msg.getD 1 0
    · rw [if_pos hid]
      exact iff_of_false (by rintro ⟨server', sends, ⟨⟩⟩) fun h => hid h.2
    · rw [if_neg hid]
      exact iff_of_true ⟨_, _, rfl⟩ ⟨hinternal, not_not.mp hid⟩

/-- A server that forwards a request returns exactly when the next datagram to arrive is one that it
takes for the answer. -/
theorem handleMsg_forwards_iff (hforward : Forwards heap node ht d)
    (queue : List (Datagram SockaddrIn Bytes)) :
    (∃ node' ht' queue' sends, handleMsg heap heap' node ht (d :: queue) =
      .returned node' ht' queue' sends) ↔
    ∃ answer rest, queue = answer :: rest ∧ answer.payload.getD 0 0 &&& internalMask = 0 ∧
      answer.payload.getD 1 0 = d.payload.getD 1 0 := by
  obtain ⟨request, sends, hreact⟩ := hforward
  have hid := react_forwards hreact
  rw [handleMsg, hreact]
  cases queue with
  | nil =>
      refine iff_of_false ?_ ?_
      · rintro ⟨node', ht', queue', sends, ⟨⟩⟩
      · rintro ⟨answer, rest, ⟨⟩, -⟩
  | cons answer queue =>
      dsimp only
      have hrelay : (∃ server' sends, relayResponse heap' ⟨node, ht, some request⟩ request answer =
          .handled server' sends) ↔ _ := relayResponse_handled_iff _ _
      rw [hid] at hrelay
      constructor
      · rintro ⟨node', ht', queue', sends', hcall⟩
        refine ⟨answer, queue, rfl, hrelay.mp ?_⟩
        split at hcall
        · exact ⟨_, _, ‹_›⟩
        · cases hcall
        · exact absurd ‹_› (relayResponse_ne_unread _ _)
      · rintro ⟨answer', rest, heq, hanswer⟩
        cases heq
        obtain ⟨server, relayed, hhandled⟩ := hrelay.mpr hanswer
        rw [hhandled]
        exact ⟨_, _, _, _, rfl⟩

end Relay

/-- While the server waits, the reply and other datagrams arrive in any order, and any of them may be late:
what it takes and relays is the reply. -/
def RelaysOnlyReply (heap heap' : Nat → UInt8) (node : DhtNode) (ht : HashTable)
    (d reply : Datagram SockaddrIn Bytes) (others : List (Datagram SockaddrIn Bytes)) : Prop :=
  ∀ arrivals node' ht' queue' sends,
    arrivals.Subperm (⟨.reply, reply⟩ :: others.map (Arrival.mk .other)) →
    handleMsg heap heap' node ht (d :: arrivals.map Arrival.datagram) =
      .returned node' ht' queue' sends →
    ∃ rest, arrivals = ⟨.reply, reply⟩ :: rest

/-- **Relayed replies.** What a server relays after it has forwarded a request is the reply, in whatever
order datagrams arrive, if and only if each of the others is internal or has another transaction id. -/
theorem relayed_reply_iff {heap heap' : Nat → UInt8} {node : DhtNode} {ht : HashTable}
    {d : Datagram SockaddrIn Bytes} (hforward : Forwards heap node ht d)
    (reply : Datagram SockaddrIn Bytes) (others : List (Datagram SockaddrIn Bytes)) :
    RelaysOnlyReply heap heap' node ht d reply others ↔
      ∀ other ∈ others, other.payload.getD 0 0 &&& internalMask ≠ 0 ∨
        other.payload.getD 1 0 ≠ d.payload.getD 1 0 := by
  constructor
  · intro h other hother
    by_contra hbad
    rw [not_or, not_not, not_not] at hbad
    have hfirst : [Arrival.mk .other other].Subperm
        (⟨.reply, reply⟩ :: others.map (Arrival.mk .other)) :=
      List.singleton_subperm_iff.mpr (List.mem_cons_of_mem _ (List.mem_map_of_mem hother))
    obtain ⟨node', ht', queue', sends, hcall⟩ : ∃ node' ht' queue' sends,
        handleMsg heap heap' node ht [d, other] = .returned node' ht' queue' sends :=
      (handleMsg_forwards_iff hforward [other]).mpr ⟨other, [], rfl, hbad⟩
    obtain ⟨rest, heq⟩ := h _ _ _ _ _ hfirst hcall
    cases heq
  · intro h arrivals node' ht' queue' sends harrivals hcall
    obtain ⟨answer, rest, heq, hanswer⟩ := (handleMsg_forwards_iff hforward _).mp ⟨_, _, _, _, hcall⟩
    obtain ⟨first, arrivals, rfl, rfl, -⟩ := List.map_eq_cons_iff.mp heq
    rcases List.mem_cons.mp (harrivals.subset List.mem_cons_self) with rfl | hmem
    · exact ⟨arrivals, rfl⟩
    · obtain ⟨other, hother, rfl⟩ := List.mem_map.mp hmem
      exact absurd hanswer fun hboth => (h other hother).elim (· hboth.1) (· hboth.2)

/-- Server 0 of the ring of two servers. -/
def testNode : DhtNode := ⟨testServer 0, some (testServer 1), some (testServer 1)⟩

/-- A client asks server 0 for a key. -/
def clientGet (port : UInt16) (transactionId : UInt8) (key : Bytes) : Datagram SockaddrIn Bytes :=
  ⟨⟨0x7f000001, port⟩, (testServer 0).address, extMsg getMask transactionId key []⟩

theorem testNode_forwards : Forwards zeroed testNode htCreate (clientGet 5000 0 [107]) := by
  refine ⟨⟨extMsg getMask 0 [107] [], ⟨0x7f000001, 5000⟩⟩,
    [testNode.send (testServer 1) (extMsg getMask 0 [107] [])], ?_⟩
  rfl

/-- What server 1 replies to the first request of a client. -/
def notFound : Datagram SockaddrIn Bytes :=
  ⟨(testServer 1).address, (testServer 0).address, extMsg acknowledgmentMask 0 [] []⟩

theorem relayed_reply_iff_otherId : RelaysOnlyReply zeroed zeroed testNode htCreate
    (clientGet 5000 0 [107]) notFound [clientGet 5001 1 [108]] :=
  (relayed_reply_iff testNode_forwards notFound [clientGet 5001 1 [108]]).mpr
    (List.forall_mem_singleton.mpr (.inr (by decide)))

/-- Two clients send their first requests: the request of the second one is relayed to the first one. -/
theorem relays_other_request :
    handleMsg zeroed zeroed testNode htCreate [clientGet 5000 0 [107], clientGet 5001 0 [108]] =
      .returned testNode htCreate []
        [⟨(testServer 0).address, (testServer 1).address, extMsg getMask 0 [107] []⟩,
          ⟨(testServer 0).address, ⟨0x7f000001, 5000⟩, extMsg getMask 0 [108] []⟩] ∧
    ¬∀ heap heap' node ht d, Forwards heap node ht d →
      ∀ reply others, RelaysOnlyReply heap heap' node ht d reply others := by
  have hcall : handleMsg zeroed zeroed testNode htCreate [clientGet 5000 0 [107], clientGet 5001 0 [108]] =
      .returned testNode htCreate []
        [⟨(testServer 0).address, (testServer 1).address, extMsg getMask 0 [107] []⟩,
          ⟨(testServer 0).address, ⟨0x7f000001, 5000⟩, extMsg getMask 0 [108] []⟩] := rfl
  refine ⟨hcall, fun h => ?_⟩
  have hfirst : [Arrival.mk .other (clientGet 5001 0 [108])].Subperm
      (⟨.reply, notFound⟩ :: [clientGet 5001 0 [108]].map (Arrival.mk .other)) :=
    List.singleton_subperm_iff.mpr (List.mem_cons_of_mem _ List.mem_cons_self)
  obtain ⟨rest, heq⟩ := h zeroed zeroed testNode htCreate (clientGet 5000 0 [107]) testNode_forwards notFound
    [clientGet 5001 0 [108]] _ _ _ _ _ hfirst hcall
  cases heq

end ComputerNetworking.Dht
