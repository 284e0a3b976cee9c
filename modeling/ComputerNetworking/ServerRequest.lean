import Mathlib.Data.List.GetD
import ComputerNetworking.HashTableRefinement
import ComputerNetworking.ChordProtocol

/-! External requests: what a server does with a well-formed one, and with the reply to one that it has
forwarded.

A request is a header, a key and a value with their exact lengths. Its processing is a sequence of
calls of the table; its reply carries the key and the value only if it found one. -/

namespace ComputerNetworking.Dht

open Datagrams

/-! ### Buffers -/

theorem length_recvInto (buffer : Nat → UInt8) (len : Nat) (payload : Bytes) :
    (recvInto buffer len payload).length = len := by
  simp [recvInto]

theorem recvInto_getD (buffer : Nat → UInt8) {len i : Nat} (payload : Bytes) (hi : i < len)
    (default : UInt8) : (recvInto buffer len payload).getD i default = payload.getD i (buffer i) := by
  simp [recvInto, hi]

/-- A header that is looked at before the rest. -/
theorem recvHeader_getD (payload : Bytes) {i : Nat} (hi : i < extHeaderLen) :
    (recvInto zeroed extHeaderLen payload).getD i 0 = payload.getD i 0 :=
  recvInto_getD zeroed payload hi 0

/-- A buffer shows only in the bytes behind the datagram. -/
theorem recvInto_congr {buffer buffer' : Nat → UInt8} {len : Nat} {payload : Bytes}
    (h : ∀ i, payload.length ≤ i → i < len → buffer i = buffer' i) :
    recvInto buffer len payload = recvInto buffer' len payload := by
  refine List.map_congr_left fun i hi => ?_
  rw [List.mem_range] at hi
  rcases Nat.lt_or_ge i payload.length with hlt | hge
  · rw [List.getD_eq_getElem payload _ hlt, List.getD_eq_getElem payload _ hlt]
  · rw [List.getD_eq_default payload _ hge, List.getD_eq_default payload _ hge, h i hge hi]

/-- The header of a datagram as it is looked at before the rest. -/
theorem extMsgLen_header (payload : Bytes) :
    extMsgLen (recvInto zeroed extHeaderLen payload) = extMsgLen payload := by
  simp only [extMsgLen, uint16At, extHeaderLen]
  rw [recvInto_getD _ _ (by decide), recvInto_getD _ _ (by decide), recvInto_getD _ _ (by decide),
    recvInto_getD _ _ (by decide)]
  rfl

/-! ### Messages -/

theorem toNat_ofNat_uint16 {n : Nat} (h : n < 65536) : (UInt16.ofNat n).toNat = n :=
  UInt16.toNat_ofNat_of_lt' h

section ExtMsg

variable (action transactionId : UInt8) (key value : Bytes)

theorem length_extMsg :
    (extMsg action transactionId key value).length = extHeaderLen + key.length + value.length := by
  simp [extMsg, bytesOfUInt16, extHeaderLen]
  omega

theorem extMsg_keyLen :
    uint16At (extMsg action transactionId key value) 2 = UInt16.ofNat key.length :=
  uint16_of_bytes _

theorem extMsg_valueLen :
    uint16At (extMsg action transactionId key value) 4 = UInt16.ofNat value.length :=
  uint16_of_bytes _

variable {key value} (hkey : key.length < 65536) (hvalue : value.length < 65536)

include hkey in
theorem extMsg_key : ((extMsg action transactionId key value).drop extHeaderLen).take
    (uint16At (extMsg action transactionId key value) 2).toNat = key := by
  rw [extMsg_keyLen, toNat_ofNat_uint16 hkey]
  exact List.take_left

include hkey hvalue in
theorem extMsg_value : ((extMsg action transactionId key value).drop
    (extHeaderLen + (uint16At (extMsg action transactionId key value) 2).toNat)).take
      (uint16At (extMsg action transactionId key value) 4).toNat = value := by
  rw [extMsg_keyLen, extMsg_valueLen, toNat_ofNat_uint16 hkey, toNat_ofNat_uint16 hvalue,
    ← List.drop_drop]
  have hdrop : (extMsg action transactionId key value).drop extHeaderLen = key ++ value := rfl
  rw [hdrop, List.drop_left, List.take_length]

include hkey hvalue in
theorem extMsgLen_extMsg : extMsgLen (extMsg action transactionId key value) =
    (extMsg action transactionId key value).length := by
  rw [extMsgLen, extMsg_keyLen, extMsg_valueLen, toNat_ofNat_uint16 hkey,
    toNat_ofNat_uint16 hvalue, length_extMsg]

end ExtMsg

/-- A well-formed request: a combination of DEL, SET and GET, and lengths that fit their fields. -/
structure Request where
  action : UInt8
  transactionId : UInt8
  key : Bytes
  value : Bytes
  action_lt : action < 8
  key_lt : key.length < 65536
  value_lt : value.length < 65536

def Request.encode (r : Request) : Bytes := extMsg r.action r.transactionId r.key r.value

theorem forall_action {p : UInt8 → Prop} (h : ∀ n : Fin 8, p (UInt8.ofNat n)) : ∀ a < 8, p a := by
  intro a ha
  have hlt : a.toNat < 8 := UInt8.lt_iff_toNat_lt.mp ha
  simpa using h ⟨a.toNat, hlt⟩

theorem action_not_internal : ∀ a < 8, internalMask &&& a = 0 := forall_action (by decide)

theorem clear_delete : ∀ a < 8, a ^^^ deleteMask < 8 ∧ (a ^^^ deleteMask) &&& setMask = a &&& setMask ∧
    (a ^^^ deleteMask) &&& getMask = a &&& getMask := forall_action (by decide)

theorem clear_get : ∀ a < 8, a &&& getMask ≠ 0 → a ^^^ getMask < 8 ∧ (a ^^^ getMask) &&& getMask = 0 :=
  forall_action (by decide)

theorem acknowledge : ∀ a < 8, (a ^^^ acknowledgmentMask) &&& internalMask = 0 ∧
    (a ^^^ acknowledgmentMask) &&& getMask = a &&& getMask := forall_action (by decide)

/-! ### Processing -/

section Process

variable (hash : Bytes → Nat) (tbl : HashTable) (action : UInt8) (key value : Bytes)

/-- A SET never fails, so that its bit stays. -/
theorem processSet_action : (processSet hash tbl action key value).2 = action := by
  have hstatus (tbl : HashTable) : (setValue hash tbl key value).2 = 0 := by
    rw [setValue]
    split <;> rfl
  unfold processSet
  split
  · change (if (htSetValue hash tbl key value).2 = -1 then _ else _) = action
    rw [htSetValue, hstatus]
    rfl
  · rfl

theorem processGet_eq : processGet hash tbl action key =
    if action &&& getMask ≠ 0 then
      match tbl.bindings hash key with
      | none => (action ^^^ getMask, [], [])
      | some value => (action, key, value)
    else (action, [], []) := by
  rw [processGet, htGetValue_eq]
  cases tbl.bindings hash key <;> rfl

end Process

namespace Request

variable (r : Request)

/-- The table and the reply after the processing of the request. -/
def serve (tbl : HashTable) : HashTable × Bytes :=
  processRequest tableHash tbl r.action r.key r.value r.transactionId

/-- The calls of the table that a request stands for. -/
def calls : List Call :=
  (if r.action &&& deleteMask ≠ 0 then [.delete r.key] else []) ++
    if r.action &&& setMask ≠ 0 then [.set r.key r.value] else []

/-- What a request finds in the table that it leaves. -/
def found (tbl : HashTable) : Option Bytes :=
  if r.action &&& getMask ≠ 0 then tbl.bindings tableHash r.key else none

/-- The reply to a request with the given action left. -/
def reply (action : UInt8) : Option Bytes → Bytes
  | none => extMsg (action ^^^ acknowledgmentMask) r.transactionId [] []
  | some value => extMsg (action ^^^ acknowledgmentMask) r.transactionId r.key value

theorem serve_table (tbl : HashTable) :
    (r.serve tbl).1 = r.calls.foldl (Call.apply tableHash) tbl := by
  have hdelete : (processDelete tableHash tbl r.action r.key).1 =
      (if r.action &&& deleteMask ≠ 0 then [Call.delete r.key] else []).foldl
        (Call.apply tableHash) tbl := by
    unfold processDelete
    split <;> rfl
  have hset : (processDelete tableHash tbl r.action r.key).2 &&& setMask = r.action &&& setMask := by
    unfold processDelete
    split
    · dsimp only
      split
      · exact (clear_delete _ r.action_lt).2.1
      · rfl
    · rfl
  rw [calls, List.foldl_append, ← hdelete]
  change (processSet tableHash (processDelete tableHash tbl r.action r.key).1
    (processDelete tableHash tbl r.action r.key).2 r.key r.value).1 = _
  rw [processSet, hset]
  split <;> rfl

/-- The reply tells what the request has found. -/
theorem serve_reply (tbl : HashTable) : ∃ action < 8,
    (action &&& getMask ≠ 0 ↔ (r.found (r.serve tbl).1).isSome) ∧
      (r.serve tbl).2 = r.reply action (r.found (r.serve tbl).1) := by
  obtain ⟨hlt, hget⟩ : (processDelete tableHash tbl r.action r.key).2 < 8 ∧
      (processDelete tableHash tbl r.action r.key).2 &&& getMask = r.action &&& getMask := by
    unfold processDelete
    split
    · dsimp only
      split
      · exact ⟨(clear_delete _ r.action_lt).1, (clear_delete _ r.action_lt).2.2⟩
      · exact ⟨r.action_lt, rfl⟩
    · exact ⟨r.action_lt, rfl⟩
  have hset := processSet_action tableHash (processDelete tableHash tbl r.action r.key).1
    (processDelete tableHash tbl r.action r.key).2 r.key r.value
  have hreply : (r.serve tbl).2 = extMsg
      ((processGet tableHash (r.serve tbl).1 (processDelete tableHash tbl r.action r.key).2 r.key).1 ^^^
        acknowledgmentMask)
      r.transactionId (processGet tableHash (r.serve tbl).1 (processDelete tableHash tbl r.action r.key).2 r.key).2.1
      (processGet tableHash (r.serve tbl).1 (processDelete tableHash tbl r.action r.key).2 r.key).2.2 := by
    rw [← hset]
    rfl
  rw [hreply, processGet_eq, hget, found]
  split
  · rename_i hbit
    cases (r.serve tbl).1.bindings tableHash r.key with
    | none =>
        obtain ⟨hlt', hclear⟩ := clear_get _ hlt (hget ▸ hbit)
        exact ⟨_, hlt', by simp [hclear], rfl⟩
    | some value => exact ⟨_, hlt, by simpa [hget] using hbit, rfl⟩
  · rename_i hbit
    exact ⟨_, hlt, by simpa [hget] using hbit, rfl⟩

end Request

/-! ### Reactions -/

section Reactions

variable (heap : Nat → UInt8) (server : Server) (r : Request) (d : Datagram SockaddrIn Bytes)

/-- A request reaches `handle_ext_msg` as it was sent. -/
theorem handleExtMsg_encode (hd : d.payload = r.encode) :
    handleExtMsg heap server d =
      if isKeyInRange server.node r.key then
        .handled { server with ht := (r.serve server.ht).1 }
          [⟨server.node.self.address, d.src, (r.serve server.ht).2⟩]
      else
        match server.node.next with
        | none => .ended
        | some next =>
            .handled { server with pending := some ⟨r.encode, d.src⟩ }
              [server.node.send next r.encode] := by
  have hlength : extMsgLen r.encode = r.encode.length := extMsgLen_extMsg _ _ r.key_lt r.value_lt
  have hheader : ¬r.encode.length < extHeaderLen := by
    rw [Request.encode, length_extMsg]
    omega
  have haction : (recvInto zeroed extHeaderLen r.encode).getD 0 0 = r.action :=
    recvInto_getD _ _ (by decide) _
  have hkeyLen : uint16At (recvInto zeroed extHeaderLen r.encode) 2 = uint16At r.encode 2 := by
    rw [uint16At, recvInto_getD _ _ (by decide), recvInto_getD _ _ (by decide)]
    rfl
  have hvalueLen : uint16At (recvInto zeroed extHeaderLen r.encode) 4 = uint16At r.encode 4 := by
    rw [uint16At, recvInto_getD _ _ (by decide), recvInto_getD _ _ (by decide)]
    rfl
  have hkey : (r.encode.drop extHeaderLen).take (uint16At r.encode 2).toNat = r.key :=
    extMsg_key _ _ r.key_lt
  have hvalue : (r.encode.drop (extHeaderLen + (uint16At r.encode 2).toNat)).take
      (uint16At r.encode 4).toNat = r.value := extMsg_value _ _ r.key_lt r.value_lt
  rw [handleExtMsg, hd, if_neg hheader]
  dsimp only
  rw [extMsgLen_header, hlength, recvInto_self, haction, hkeyLen, hvalueLen, hkey, hvalue]
  rfl

/-- A server that waits for no answer takes a request as an external message. -/
theorem react_request (hd : d.payload = r.encode) (hpending : server.pending = none) :
    react heap server d = handleExtMsg heap server d := by
  have hinternal : ¬internalMask &&& d.payload.getD 0 0 ≠ 0 := by
    rw [hd, not_not]
    exact action_not_internal _ r.action_lt
  simp only [react, hpending]
  rw [if_neg hinternal]

/-- A datagram that the server takes for the answer to the request. -/
structure IsReply (payload : Bytes) : Prop where
  header : extHeaderLen ≤ payload.length
  external : payload.getD 0 0 &&& internalMask = 0
  transaction : payload.getD 1 0 = r.transactionId

theorem isReply_serve (tbl : HashTable) : IsReply r (r.serve tbl).2 := by
  obtain ⟨action, haction, -, heq⟩ := r.serve_reply tbl
  have hexternal := (acknowledge _ haction).1
  rw [heq]
  cases r.found (r.serve tbl).1 with
  | none => exact ⟨by rw [Request.reply, length_extMsg]; omega, hexternal, rfl⟩
  | some value => exact ⟨by rw [Request.reply, length_extMsg]; omega, hexternal, rfl⟩

/-- The reply that is sent on has the length of the request. -/
theorem react_reply {theirAddr : SockaddrIn} (hd : IsReply r d.payload)
    (hpending : server.pending = some ⟨r.encode, theirAddr⟩) :
    react heap server d = .handled { server with pending := none }
      [⟨server.node.self.address, theirAddr, recvInto heap r.encode.length d.payload⟩] := by
  have hlength : extMsgLen r.encode = r.encode.length := extMsgLen_extMsg _ _ r.key_lt r.value_lt
  have hzero := recvHeader_getD d.payload (show 0 < extHeaderLen by decide)
  have hone := recvHeader_getD d.payload (show 1 < extHeaderLen by decide)
  have hbuffer : recvInto (fun i => (recvInto zeroed extHeaderLen d.payload).getD i (heap i))
      r.encode.length d.payload = recvInto heap r.encode.length d.payload := by
    refine recvInto_congr fun i hi _ => List.getD_eq_default _ _ ?_
    rw [length_recvInto]
    exact hd.header.trans hi
  simp only [react, hpending, relayResponse]
  rw [if_neg (by rw [hzero, hd.external]; exact not_not_intro rfl),
    if_neg (by rw [hone, hd.transaction]; exact not_not_intro rfl), hlength, hbuffer]

/-- What is sent on is again an answer to the request. -/
theorem IsReply.relayed {r : Request} {payload : Bytes} (h : IsReply r payload) :
    IsReply r (recvInto heap r.encode.length payload) := by
  have hlength : extHeaderLen ≤ r.encode.length := by
    rw [Request.encode, length_extMsg]
    omega
  have hlt : 1 < payload.length := Nat.lt_of_lt_of_le (by decide) h.header
  refine ⟨by rwa [length_recvInto], ?_, ?_⟩
  · rw [recvInto_getD _ _ (Nat.lt_of_lt_of_le (by decide) hlength),
      List.getD_eq_getElem _ _ (by omega), ← List.getD_eq_getElem _ 0]
    exact h.external
  · rw [recvInto_getD _ _ (Nat.lt_of_lt_of_le (by decide) hlength),
      List.getD_eq_getElem _ _ hlt, ← List.getD_eq_getElem _ 0]
    exact h.transaction

end Reactions

end ComputerNetworking.Dht
