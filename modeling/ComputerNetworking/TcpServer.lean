import ComputerNetworking.ServerRequest

/-! The hash table server over TCP (`Distributed Hash Table/server.c`), and what a request means to it and
to the server over UDP.

A connection is the byte stream that the client sends before it closes, or before `recv` fails, as it
does after a timeout. With `MSG_WAITALL`, `recv` returns fewer bytes than asked for only at the end of the
stream, and fails there only if it has read none. The buffers on the stack keep what they held before. -/

namespace ComputerNetworking.Tcp

open Dht Datagrams

/-! ### Connections -/

/-- What `recv` does at the end of the stream: it returns 0, or it fails. -/
inductive Ending where
  | closed
  | failed
  deriving DecidableEq, Repr

structure Stream where
  bytes : Bytes
  ending : Ending
  deriving DecidableEq, Repr

/-- `recv` with `MSG_WAITALL`: what it has read, `none` if it fails, and the rest of the stream. -/
def recvWaitall (n : Nat) (s : Stream) : Option Bytes × Stream :=
  if s.bytes = [] ∧ 0 < n ∧ s.ending = .failed then (none, s)
  else (some (s.bytes.take n), { s with bytes := s.bytes.drop n })

/-- `HEADER_LEN`. -/
def headerLen : Nat := 6

/-- What the buffers on the stack hold when `serve` is called. -/
structure Stack where
  key : Nat → UInt8
  value : Nat → UInt8

/-- Reads into a buffer, puts a zero behind what has been read, and takes `len` bytes of the buffer. -/
def recvBuffer (stack : Nat → UInt8) (len : Nat) (s : Stream) : Option (Bytes × Stream) :=
  match recvWaitall len s with
  | (none, _) => none
  | (some data, s) => some (recvInto (fun i => if i = data.length then 0 else stack i) len data, s)

/-- What `serve` takes for the request. -/
structure Received where
  action : UInt8
  transactionId : UInt8
  key : Bytes
  value : Bytes
  deriving DecidableEq, Repr

/-- The first half of `serve`, `none` when it jumps to `close_conn_sock`. -/
def recvRequest (stack : Stack) (s : Stream) : Option Received :=
  match recvWaitall headerLen s with
  | (none, _) => none
  | (some header, s) =>
      if header.length ≠ headerLen then none
      else
        let recvKeyLen := (uint16At header 2).toNat
        let recvValueLen := (uint16At header 4).toNat
        if recvKeyLen > 0 then
          (recvBuffer stack.key recvKeyLen s).bind fun (key, s) =>
            if recvValueLen > 0 then
              (recvBuffer stack.value recvValueLen s).map fun (value, _) =>
                ⟨header.getD 0 0, header.getD 1 0, key, value⟩
            else some ⟨header.getD 0 0, header.getD 1 0, key, []⟩
        else some ⟨header.getD 0 0, header.getD 1 0, [], recvInto stack.value recvValueLen []⟩

/-- `serve` on a connection: the table and what is sent back. -/
def serve (stack : Stack) (tbl : HashTable) (s : Stream) : HashTable × Option Bytes :=
  match recvRequest stack s with
  | none => (tbl, none)
  | some r =>
      let (tbl, response) := processRequest sizeHash tbl r.action r.key r.value r.transactionId
      (tbl, some response)

/-! ### Incomplete requests -/

section Incomplete

variable {s : Stream} {stack : Stack} {tbl : HashTable}

/-- The lengths in the header of a stream. -/
def keyLen (s : Stream) : Nat := (uint16At s.bytes 2).toNat

def valueLen (s : Stream) : Nat := (uint16At s.bytes 4).toNat

/-- The stream ends before the header, the key or the value is complete, or there is no key. -/
def Incomplete (s : Stream) : Prop :=
  s.bytes.length < headerLen ∨ s.bytes.length < headerLen + keyLen s + valueLen s ∨ keyLen s = 0

/-- The stream ends inside the header, or `recv` fails before it has read a byte of the key, or of the
value if there is to be one. -/
def Rejected (s : Stream) : Prop :=
  s.bytes.length < headerLen ∨ s.ending = .failed ∧ 0 < keyLen s ∧
    (s.bytes.length = headerLen ∨ 0 < valueLen s ∧ s.bytes.length ≤ headerLen + keyLen s)

theorem recvBuffer_eq_none_iff {buffer : Nat → UInt8} {n : Nat} (hn : 0 < n) :
    recvBuffer buffer n s = none ↔ s.bytes = [] ∧ s.ending = .failed := by
  rw [recvBuffer, recvWaitall]
  by_cases h : s.bytes = [] ∧ s.ending = .failed
  · rw [if_pos ⟨h.1, hn, h.2⟩]
    exact ⟨fun _ => h, fun _ => rfl⟩
  · rw [if_neg fun hall => h ⟨hall.1, hall.2.2⟩]
    exact ⟨fun hnone => absurd hnone (Option.some_ne_none _), fun hall => absurd hall h⟩

/-- What is left of the stream after a buffer has been read. -/
theorem recvBuffer_rest {buffer : Nat → UInt8} {n : Nat} {data : Bytes} {rest : Stream}
    (h : recvBuffer buffer n s = some (data, rest)) :
    rest.bytes = s.bytes.drop n ∧ rest.ending = s.ending := by
  rw [recvBuffer, recvWaitall] at h
  split at h
  · cases h
  · rename_i heq
    split at heq
    · cases heq
    · cases heq
      cases h
      exact ⟨rfl, rfl⟩

/-- The header of a stream that has one. -/
theorem recvWaitall_header (h : headerLen ≤ s.bytes.length) :
    recvWaitall headerLen s =
      (some (s.bytes.take headerLen), { s with bytes := s.bytes.drop headerLen }) := by
  have hne : s.bytes ≠ [] := by
    rintro hnil
    rw [hnil] at h
    exact absurd h (by decide)
  rw [recvWaitall, if_neg fun hall => hne hall.1]

theorem uint16At_take (bytes : Bytes) {n offset : Nat} (h : offset + 1 < n) :
    uint16At (bytes.take n) offset = uint16At bytes offset := by
  have hget (i : Nat) (hi : i < n) : (bytes.take n).getD i 0 = bytes.getD i 0 := by
    rw [List.getD_eq_getElem?_getD, List.getD_eq_getElem?_getD, List.getElem?_take, if_pos hi]
  rw [uint16At, uint16At, hget offset (by omega), hget (offset + 1) h]

theorem recvRequest_of_short (h : s.bytes.length < headerLen) : recvRequest stack s = none := by
  unfold recvRequest recvWaitall
  split
  · rfl
  · rename_i heq
    split at heq
    · cases heq
    · cases heq
      rw [if_pos]
      rw [List.length_take]
      omega

/-- After a whole header `serve` receives the key and the value of the lengths that it gives. -/
theorem recvRequest_of_header (h : headerLen ≤ s.bytes.length) :
    recvRequest stack s = none ↔ 0 < keyLen s ∧ ∀ data,
      recvBuffer stack.key (keyLen s) { s with bytes := s.bytes.drop headerLen } = some data →
        0 < valueLen s ∧ recvBuffer stack.value (valueLen s) data.2 = none := by
  have hlength : (s.bytes.take headerLen).length = headerLen := List.length_take_of_le h
  have hkey : (uint16At (s.bytes.take headerLen) 2).toNat = keyLen s := by
    rw [uint16At_take _ (by decide), keyLen]
  have hvalue : (uint16At (s.bytes.take headerLen) 4).toNat = valueLen s := by
    rw [uint16At_take _ (by decide), valueLen]
  rw [recvRequest, recvWaitall_header h]
  simp only [hlength, ne_eq, not_true_eq_false, if_false, hkey, hvalue]
  split
  · rename_i hkeyPos
    rw [Option.bind_eq_none_iff, and_iff_right hkeyPos]
    refine forall_congr' fun data => imp_congr_right fun _ => ?_
    split
    · rename_i hvaluePos
      rw [Option.map_eq_none_iff, and_iff_right hvaluePos]
    · rename_i hvaluePos
      exact iff_of_false (Option.some_ne_none _) fun hall => hvaluePos hall.1
  · rename_i hkeyPos
    exact iff_of_false (Option.some_ne_none _) fun hall => hkeyPos hall.1

theorem recvRequest_eq_none_iff : recvRequest stack s = none ↔ Rejected s := by
  by_cases hheader : s.bytes.length < headerLen
  · exact iff_of_true (recvRequest_of_short hheader) (.inl hheader)
  rw [recvRequest_of_header (by omega), Rejected, or_iff_right hheader]
  have hdrop (n : Nat) : s.bytes.drop n = [] ↔ s.bytes.length ≤ n := List.drop_eq_nil_iff
  constructor
  · rintro ⟨hkeyPos, h⟩
    cases hread : recvBuffer stack.key (keyLen s) { s with bytes := s.bytes.drop headerLen } with
    | none =>
        obtain ⟨hnil, hfailed⟩ := (recvBuffer_eq_none_iff hkeyPos).mp hread
        rw [hdrop] at hnil
        exact ⟨hfailed, hkeyPos, .inl (by omega)⟩
    | some data =>
        obtain ⟨hrest, hending⟩ := recvBuffer_rest hread
        obtain ⟨hvaluePos, hvalueNone⟩ := h data hread
        rw [recvBuffer_eq_none_iff hvaluePos, hrest, hending] at hvalueNone
        obtain ⟨hnil, hfailed⟩ := hvalueNone
        rw [List.drop_drop, hdrop] at hnil
        exact ⟨hfailed, hkeyPos, .inr ⟨hvaluePos, hnil⟩⟩
  · rintro ⟨hfailed, hkeyPos, hend⟩
    refine ⟨hkeyPos, fun data hread => ?_⟩
    obtain ⟨hrest, hending⟩ := recvBuffer_rest hread
    have hsome : s.bytes.drop headerLen ≠ [] := by
      intro hnil
      have hnone : recvBuffer stack.key (keyLen s) { s with bytes := s.bytes.drop headerLen } = none :=
        (recvBuffer_eq_none_iff hkeyPos).mpr ⟨hnil, hfailed⟩
      rw [hnone] at hread
      cases hread
    rw [Ne, hdrop] at hsome
    obtain ⟨hvaluePos, hle⟩ := hend.resolve_left (by omega)
    refine ⟨hvaluePos, ?_⟩
    rw [recvBuffer_eq_none_iff hvaluePos, hrest, hending, List.drop_drop, hdrop]
    exact ⟨hle, hfailed⟩

/-- **Incomplete requests.** The server sends nothing and leaves the table alone exactly when the header
is incomplete or `recv` fails before it has read a byte of the key or of the value. -/
theorem serve_incomplete_iff (stack : Stack) (tbl : HashTable) (s : Stream) (_h : Incomplete s) :
    serve stack tbl s = (tbl, none) ↔ Rejected s := by
  rw [← recvRequest_eq_none_iff, serve]
  cases recvRequest stack s with
  | none => exact ⟨fun _ => rfl, fun _ => rfl⟩
  | some r => simp

end Incomplete

/-- A stack of zeros. -/
def zeroStack : Stack := ⟨zeroed, zeroed⟩

theorem serve_incomplete_iff_header :
    serve zeroStack htCreate ⟨[2, 2, 0, 0], .closed⟩ = (htCreate, none) :=
  (serve_incomplete_iff zeroStack htCreate ⟨[2, 2, 0, 0], .closed⟩ (.inl (by decide))).mpr
    (.inl (by decide))

/-- A SET without a key is served: it is answered, and binds the empty key. -/
theorem serve_answers_incomplete :
    Incomplete ⟨[2, 2, 0, 0, 0, 0], .closed⟩ ∧
      (serve zeroStack htCreate ⟨[2, 2, 0, 0, 0, 0], .closed⟩).2 = some [10, 2, 0, 0, 0, 0] ∧
      (htGetValue sizeHash htCreate []).1 = -1 ∧
      (htGetValue sizeHash (serve zeroStack htCreate ⟨[2, 2, 0, 0, 0, 0], .closed⟩).1 []).1 = 0 ∧
      ¬∀ stack tbl s, Incomplete s → serve stack tbl s = (tbl, none) := by
  have hincomplete : Incomplete ⟨[2, 2, 0, 0, 0, 0], .closed⟩ := .inr (.inr (by decide))
  have hresponse : (serve zeroStack htCreate ⟨[2, 2, 0, 0, 0, 0], .closed⟩).2 =
      some [10, 2, 0, 0, 0, 0] := by decide
  refine ⟨hincomplete, hresponse, by decide, by decide, fun h => ?_⟩
  rw [h zeroStack htCreate _ hincomplete] at hresponse
  cases hresponse

/-! ### What a request means -/

/-- The map after a request: first it deletes, then it sets. -/
def mapAfter (action : UInt8) (key value : Bytes) (map : Bytes → Option Bytes) : Bytes → Option Bytes :=
  let deleted := if action &&& deleteMask ≠ 0 then Function.update map key none else map
  if action &&& setMask ≠ 0 then Function.update deleted key (some value) else deleted

/-- The action of a response: ACK, SET as it was, DEL if the key was bound, GET if it is bound now. -/
def responseAction (action : UInt8) (bound boundAfter : Bool) : UInt8 :=
  acknowledgmentMask ||| (action &&& setMask) ||| (if bound then action &&& deleteMask else 0) |||
    if boundAfter then action &&& getMask else 0

/-- The response to a request: the key and its value only if GET is kept. -/
def responseTo (map : Bytes → Option Bytes) (r : Request) : Bytes :=
  let after := mapAfter r.action r.key r.value map
  let action := responseAction r.action (map r.key).isSome (after r.key).isSome
  if action &&& getMask ≠ 0 then extMsg action r.transactionId r.key ((after r.key).getD [])
  else extMsg action r.transactionId [] []

/-- What is left of an action after the deletion of a key. -/
def leftOf (action : UInt8) (bound : Bool) : UInt8 :=
  if action &&& deleteMask ≠ 0 ∧ bound = false then action ^^^ deleteMask else action

/-- The response to what is left of an action: the key with its value only if GET is asked for and the
key is bound. -/
def responseWith (left transactionId : UInt8) (key : Bytes) (after : Option Bytes) : Bytes :=
  if left &&& getMask ≠ 0 then
    match after with
    | none => extMsg (left ^^^ getMask ^^^ acknowledgmentMask) transactionId [] []
    | some value => extMsg (left ^^^ acknowledgmentMask) transactionId key value
  else extMsg (left ^^^ acknowledgmentMask) transactionId [] []

/-- A table as the servers have it: well formed, with values whose lengths fit their field. -/
structure Storable (hash : Bytes → Nat) (tbl : HashTable) : Prop where
  wf : tbl.Wf hash
  value_lt : ∀ key value, tbl.bindings hash key = some value → value.length < 65536

theorem mapAfter_of_ne {key key' : Bytes} (h : key' ≠ key) (action : UInt8) (value : Bytes)
    (map : Bytes → Option Bytes) : mapAfter action key value map key' = map key' := by
  have hdeleted : (if action &&& deleteMask ≠ 0 then Function.update map key none else map) key' =
      map key' := by
    split
    · exact Function.update_of_ne h _ _
    · rfl
  unfold mapAfter
  split
  · exact (Function.update_of_ne h _ _).trans hdeleted
  · exact hdeleted

theorem mapAfter_of_clear {action : UInt8} (hdelete : action &&& deleteMask = 0)
    (hset : action &&& setMask = 0) (key value : Bytes) (map : Bytes → Option Bytes) :
    mapAfter action key value map = map := by
  rw [mapAfter, if_neg (not_not.mpr hset), if_neg (not_not.mpr hdelete)]

theorem mapAfter_set (key value : Bytes) (map : Bytes → Option Bytes) :
    mapAfter setMask key value map = Function.update map key (some value) := by
  rw [mapAfter, if_pos (by decide), if_neg (by decide)]

/-- The response to a GET of a key that is bound. -/
theorem responseTo_get {map : Bytes → Option Bytes} {r : Request} (haction : r.action = getMask)
    {found : Bytes} (hfound : map r.key = some found) :
    responseTo map r = extMsg (acknowledgmentMask ||| getMask) r.transactionId r.key found := by
  have hafter : mapAfter r.action r.key r.value map r.key = some found := by
    rw [haction, mapAfter_of_clear (by decide) (by decide), hfound]
  have hkept : responseAction getMask (some found).isSome (some found).isSome =
      acknowledgmentMask ||| getMask := by
    change responseAction getMask true true = _
    decide
  rw [responseTo, hafter, hfound, haction, hkept, if_pos (by decide)]
  rfl

section Meaning

variable {hash : Bytes → Nat} {tbl : HashTable}

theorem clear_delete_set (action : UInt8) : (action ^^^ deleteMask) &&& setMask = action &&& setMask := by
  apply UInt8.toNat_inj.mp
  rw [UInt8.toNat_and, UInt8.toNat_xor, UInt8.toNat_and, Nat.and_xor_distrib_right]
  exact Nat.xor_zero _

theorem clear_delete_get (action : UInt8) : (action ^^^ deleteMask) &&& getMask = action &&& getMask := by
  apply UInt8.toNat_inj.mp
  rw [UInt8.toNat_and, UInt8.toNat_xor, UInt8.toNat_and, Nat.and_xor_distrib_right]
  exact Nat.xor_zero _

theorem leftOf_get (action : UInt8) (bound : Bool) :
    leftOf action bound &&& getMask = action &&& getMask := by
  unfold leftOf
  split
  · exact clear_delete_get action
  · rfl

theorem processDelete_spec (h : tbl.Wf hash) (action : UInt8) (key : Bytes) :
    (processDelete hash tbl action key).1.Wf hash ∧
      (processDelete hash tbl action key).1.bindings hash =
        (if action &&& deleteMask ≠ 0 then Function.update (tbl.bindings hash) key none
          else tbl.bindings hash) ∧
      (processDelete hash tbl action key).2 =
        if action &&& deleteMask ≠ 0 ∧ (tbl.bindings hash key).isSome = false then action ^^^ deleteMask
        else action := by
  obtain ⟨hwf, hmap, hstatus⟩ := htDeleteKey_spec h key
  unfold processDelete
  by_cases hbit : action &&& deleteMask ≠ 0
  · rw [if_pos hbit, if_pos hbit]
    refine ⟨hwf, hmap, ?_⟩
    dsimp only
    rw [hstatus]
    cases tbl.bindings hash key with
    | none => simp [hbit]
    | some value => simp
  · rw [if_neg hbit, if_neg hbit, if_neg fun hall => hbit hall.1]
    exact ⟨h, rfl, rfl⟩

theorem processSet_spec (h : tbl.Wf hash) (action : UInt8) (key value : Bytes) :
    (processSet hash tbl action key value).1.Wf hash ∧
      (processSet hash tbl action key value).1.bindings hash =
        (if action &&& setMask ≠ 0 then Function.update (tbl.bindings hash) key (some value)
          else tbl.bindings hash) ∧
      (processSet hash tbl action key value).2 = action := by
  obtain ⟨hwf, hmap, -⟩ := htSetValue_spec h key value
  rw [← and_assoc]
  refine ⟨?_, processSet_action hash tbl action key value⟩
  unfold processSet
  by_cases hbit : action &&& setMask ≠ 0
  · rw [if_pos hbit, if_pos hbit]
    exact ⟨hwf, hmap⟩
  · rw [if_neg hbit, if_neg hbit]
    exact ⟨h, rfl⟩

/-- Whatever the action, the table after the processing is the map that the request asks for. -/
theorem processRequest_table (h : tbl.Wf hash) (action : UInt8) (key value : Bytes) (transactionId : UInt8) :
    (processRequest hash tbl action key value transactionId).1.Wf hash ∧
      (processRequest hash tbl action key value transactionId).1.bindings hash =
        mapAfter action key value (tbl.bindings hash) := by
  obtain ⟨hwf, hdeleted, haction⟩ := processDelete_spec h action key
  have hset : (processDelete hash tbl action key).2 &&& setMask = action &&& setMask := by
    rw [haction]
    split
    · exact clear_delete_set action
    · rfl
  obtain ⟨hwf', hmap, -⟩ := processSet_spec hwf (processDelete hash tbl action key).2 key value
  rw [hset, hdeleted] at hmap
  exact ⟨hwf', hmap⟩

theorem responseAction_eq : ∀ action < 8, ∀ bound boundAfter : Bool,
    (let deleted := if action &&& deleteMask ≠ 0 ∧ bound = false then action ^^^ deleteMask else action
      let kept := if deleted &&& getMask ≠ 0 ∧ boundAfter = false then deleted ^^^ getMask else deleted
      kept ^^^ acknowledgmentMask) = responseAction action bound boundAfter := forall_action (by decide)

theorem responseAction_get : ∀ action < 8, ∀ bound boundAfter : Bool,
    responseAction action bound boundAfter &&& getMask =
      if boundAfter then action &&& getMask else 0 := forall_action (by decide)

/-- Whatever the action, the response is that to what is left of it. -/
theorem processRequest_response_eq (h : tbl.Wf hash) (action : UInt8) (key value : Bytes)
    (transactionId : UInt8) :
    (processRequest hash tbl action key value transactionId).2 =
      responseWith (leftOf action (tbl.bindings hash key).isSome) transactionId key
        (mapAfter action key value (tbl.bindings hash) key) := by
  obtain ⟨-, hmap⟩ := processRequest_table h action key value transactionId
  obtain ⟨hdeleted, -, hdelete⟩ := processDelete_spec h action key
  obtain ⟨-, -, hset⟩ := processSet_spec hdeleted (processDelete hash tbl action key).2 key value
  have hsent : ∀ sent, sent = processGet hash (processRequest hash tbl action key value transactionId).1
      (processDelete hash tbl action key).2 key →
      (processRequest hash tbl action key value transactionId).2 =
        extMsg (sent.1 ^^^ acknowledgmentMask) transactionId sent.2.1 sent.2.2 := by
    rintro sent rfl
    rw [← hset]
    rfl
  rw [hsent _ rfl, processGet_eq, hmap, hdelete, ← leftOf]
  unfold responseWith
  split
  · cases mapAfter action key value (tbl.bindings hash) key <;> rfl
  · rfl

/-- The processing of a well-formed request answers as the map before it asks for. -/
theorem processRequest_response (h : tbl.Wf hash) (r : Request) :
    (processRequest hash tbl r.action r.key r.value r.transactionId).2 =
      responseTo (tbl.bindings hash) r := by
  have haction : (if leftOf r.action (tbl.bindings hash r.key).isSome &&& getMask ≠ 0 ∧
        (mapAfter r.action r.key r.value (tbl.bindings hash) r.key).isSome = false
      then leftOf r.action (tbl.bindings hash r.key).isSome ^^^ getMask
      else leftOf r.action (tbl.bindings hash r.key).isSome) ^^^ acknowledgmentMask = _ :=
    responseAction_eq r.action r.action_lt _ _
  have hkept := responseAction_get r.action r.action_lt (tbl.bindings hash r.key).isSome
    (mapAfter r.action r.key r.value (tbl.bindings hash) r.key).isSome
  rw [processRequest_response_eq h, responseTo, hkept, ← haction]
  unfold responseWith
  rw [leftOf_get]
  by_cases hbit : r.action &&& getMask = 0
  · simp [hbit]
  · cases mapAfter r.action r.key r.value (tbl.bindings hash) r.key with
    | none => simp [hbit]
    | some value => simp [hbit]

/-! ### Runs -/

theorem storable_htCreate : Storable hash htCreate :=
  ⟨wf_htCreate hash, by rintro key value ⟨⟩⟩

/-- A value that fits its field keeps the values of a map so. -/
theorem mapAfter_value_lt {map : Bytes → Option Bytes} {action : UInt8} {key value : Bytes}
    (hvalue : value.length < 65536) (h : ∀ key' found, map key' = some found → found.length < 65536) :
    ∀ key' found, mapAfter action key value map key' = some found → found.length < 65536 := by
  have hupdate {map : Bytes → Option Bytes} (h : ∀ key' found, map key' = some found → found.length < 65536)
      (new : Option Bytes) (hnew : ∀ found, new = some found → found.length < 65536) :
      ∀ key' found, Function.update map key new key' = some found → found.length < 65536 := by
    intro key' found hfound
    rw [Function.update_apply] at hfound
    split at hfound
    · exact hnew found hfound
    · exact h key' found hfound
  have hdeleted : ∀ key' found, (if action &&& deleteMask ≠ 0 then Function.update map key none else map)
      key' = some found → found.length < 65536 := by
    split
    · exact hupdate h none (by rintro found ⟨⟩)
    · exact h
  unfold mapAfter
  split
  · apply hupdate hdeleted (some value)
    rintro found ⟨⟩
    exact hvalue
  · exact hdeleted

theorem Storable.processRequest (h : Storable hash tbl) (action : UInt8) (key : Bytes) {value : Bytes}
    (hvalue : value.length < 65536) (transactionId : UInt8) :
    Storable hash (Dht.processRequest hash tbl action key value transactionId).1 := by
  obtain ⟨hwf, hmap⟩ := processRequest_table h.wf action key value transactionId
  exact ⟨hwf, hmap ▸ mapAfter_value_lt hvalue h.value_lt⟩

theorem recvBuffer_length_lt {buffer : Nat → UInt8} {n : UInt16} {s : Stream} {data : Bytes} {rest : Stream}
    (h : recvBuffer buffer n.toNat s = some (data, rest)) : data.length < 65536 := by
  unfold recvBuffer at h
  split at h
  · cases h
  · cases h
    rw [length_recvInto]
    exact n.toNat_lt

/-- A value that is received fits its field. -/
theorem recvRequest_value_lt {stack : Stack} {s : Stream} {r : Received} (h : recvRequest stack s = some r) :
    r.value.length < 65536 := by
  unfold recvRequest at h
  split at h
  · cases h
  · split at h
    · cases h
    · dsimp only at h
      split at h
      · rw [Option.bind_eq_some_iff] at h
        obtain ⟨⟨key, rest⟩, -, h⟩ := h
        dsimp only at h
        split at h
        · rw [Option.map_eq_some_iff] at h
          obtain ⟨⟨value, last⟩, hvalue, rfl⟩ := h
          exact recvBuffer_length_lt hvalue
        · cases h
          exact Nat.zero_lt_succ _
      · cases h
        dsimp only
        rw [length_recvInto]
        exact UInt16.toNat_lt _

/-- The server over TCP keeps its table storable, whatever a client sends. -/
theorem Storable.serve (h : Storable sizeHash tbl) (stack : Stack) (s : Stream) :
    Storable sizeHash (serve stack tbl s).1 := by
  unfold Tcp.serve
  cases hrecv : recvRequest stack s with
  | none => exact h
  | some r => exact h.processRequest r.action r.key (recvRequest_value_lt hrecv) r.transactionId

/-- The server over UDP keeps its table storable, whatever datagram it takes. -/
theorem Storable.react {heap : Nat → UInt8} {server server' : Server} {d : Datagram SockaddrIn Bytes}
    {sends : List (Datagram SockaddrIn Bytes)} (h : Storable tableHash server.ht)
    (hreact : react heap server d = .handled server' sends) : Storable tableHash server'.ht := by
  unfold Dht.react at hreact
  split at hreact
  · rw [relayResponse] at hreact
    split at hreact
    · cases hreact
    · split at hreact
      · cases hreact
      · cases hreact
        exact h
  · split at hreact
    · split at hreact
      · cases hreact
        exact h
      · cases hreact
    · unfold handleExtMsg at hreact
      dsimp only at hreact
      split at hreact
      · cases hreact
      · split at hreact
        · cases hreact
          -- the table does not depend on the transaction id
          refine h.processRequest _ _ ?_ 0
          exact (List.length_take_le _ _).trans_lt (UInt16.toNat_lt _)
        · split at hreact
          · cases hreact
          · cases hreact
            exact h

/-! ### Complete requests -/

/-- What is at the front of a stream is read. -/
theorem recvWaitall_append (data rest : Bytes) (ending : Ending) :
    recvWaitall data.length ⟨data ++ rest, ending⟩ = (some data, ⟨rest, ending⟩) := by
  have hmore : ¬(data ++ rest = [] ∧ 0 < data.length ∧ ending = .failed) := by
    rintro ⟨hnil, hpos, -⟩
    rw [(List.append_eq_nil_iff.mp hnil).1] at hpos
    exact absurd hpos (lt_irrefl 0)
  rw [recvWaitall, if_neg hmore]
  simp

/-- A buffer that can be filled. -/
theorem recvBuffer_append (buffer : Nat → UInt8) (data rest : Bytes) (ending : Ending) :
    recvBuffer buffer data.length ⟨data ++ rest, ending⟩ = some (data, ⟨rest, ending⟩) := by
  simp only [recvBuffer, recvWaitall_append, recvInto_self]

/-- The header of a message. -/
def headerOf (action transactionId : UInt8) (key value : Bytes) : Bytes :=
  action :: transactionId :: (bytesOfUInt16 (UInt16.ofNat key.length) ++
    bytesOfUInt16 (UInt16.ofNat value.length))

section Header

variable (action transactionId : UInt8) {key value : Bytes}

theorem extMsg_eq_headerOf (key value : Bytes) :
    extMsg action transactionId key value = headerOf action transactionId key value ++ (key ++ value) :=
  List.append_assoc _ key value

theorem length_headerOf (key value : Bytes) :
    headerLen = (headerOf action transactionId key value).length := rfl

theorem headerOf_keyLen (hkey : key.length < 65536) (value : Bytes) :
    (uint16At (headerOf action transactionId key value) 2).toNat = key.length :=
  (congrArg _ (uint16_of_bytes (UInt16.ofNat key.length))).trans (toNat_ofNat_uint16 hkey)

theorem headerOf_valueLen (key : Bytes) (hvalue : value.length < 65536) :
    (uint16At (headerOf action transactionId key value) 4).toNat = value.length :=
  (congrArg _ (uint16_of_bytes (UInt16.ofNat value.length))).trans (toNat_ofNat_uint16 hvalue)

end Header

/-- A request with a key is received as it was sent. -/
theorem recvRequest_encode (stack : Stack) (r : Request) (hkey : r.key ≠ []) (rest : Bytes)
    (ending : Ending) : recvRequest stack ⟨r.encode ++ rest, ending⟩ =
      some ⟨r.action, r.transactionId, r.key, r.value⟩ := by
  have hstream : r.encode ++ rest =
      headerOf r.action r.transactionId r.key r.value ++ (r.key ++ (r.value ++ rest)) := by
    rw [Request.encode, extMsg_eq_headerOf, List.append_assoc, List.append_assoc]
  have hheader := length_headerOf r.action r.transactionId r.key r.value
  have hkeyPos : r.key.length > 0 := List.length_pos_iff.mpr hkey
  rw [recvRequest, hstream, hheader, recvWaitall_append]
  dsimp only
  rw [if_neg (not_not.mpr rfl), headerOf_keyLen _ _ r.key_lt, headerOf_valueLen _ _ _ r.value_lt,
    if_pos hkeyPos, recvBuffer_append, Option.bind_some]
  dsimp only
  by_cases hvalue : r.value = []
  · rw [if_neg (by simp [hvalue]), hvalue]
    rfl
  · rw [if_pos (List.length_pos_iff.mpr hvalue), recvBuffer_append]
    rfl

/-- What the server over TCP does with a request. -/
theorem serve_encode (h : tbl.Wf sizeHash) (stack : Stack) (r : Request) (hkey : r.key ≠ []) (rest : Bytes)
    (ending : Ending) : ∃ after,
      serve stack tbl ⟨r.encode ++ rest, ending⟩ =
        (after, some (responseTo (tbl.bindings sizeHash) r)) ∧ after.Wf sizeHash ∧
      after.bindings sizeHash = mapAfter r.action r.key r.value (tbl.bindings sizeHash) := by
  obtain ⟨hafter, hmap⟩ := processRequest_table h r.action r.key r.value r.transactionId
  refine ⟨_, ?_, hafter, hmap⟩
  rw [serve, recvRequest_encode stack r hkey, ← processRequest_response h]

/-- The lengths in a response are those of its body. -/
theorem extMsgLen_responseTo (r : Request) {map : Bytes → Option Bytes}
    (h : ∀ key value, map key = some value → value.length < 65536) :
    extMsgLen (responseTo map r) = (responseTo map r).length := by
  have hafter := @mapAfter_value_lt map r.action r.key r.value r.value_lt h
  rw [responseTo]
  split
  · apply extMsgLen_extMsg _ _ r.key_lt
    cases hfound : mapAfter r.action r.key r.value map r.key with
    | none => exact Nat.zero_lt_succ _
    | some value => exact hafter _ _ hfound
  · exact extMsgLen_extMsg _ _ (Nat.zero_lt_succ _) (Nat.zero_lt_succ _)

end Meaning

/-- **The meaning of a request.** For a well-formed request with a key, both servers delete, then set,
then look up; their tables are then the map so obtained, and they send the same response to the same
map. Its lengths are those of its body for every table that a server can have: the servers start with
a storable table and keep it so. -/
theorem request_semantics (r : Request) (hkey : r.key ≠ []) :
    (∀ stack tbl rest ending, tbl.Wf sizeHash → ∃ after,
      serve stack tbl ⟨r.encode ++ rest, ending⟩ =
        (after, some (responseTo (tbl.bindings sizeHash) r)) ∧ after.Wf sizeHash ∧
      after.bindings sizeHash = mapAfter r.action r.key r.value (tbl.bindings sizeHash)) ∧
    (∀ heap (server : Server) (d : Datagram SockaddrIn Bytes), server.ht.Wf tableHash →
      server.pending = none → d.payload = r.encode → isKeyInRange server.node r.key = true → ∃ after,
      react heap server d = .handled { server with ht := after }
        [⟨server.node.self.address, d.src, responseTo (server.ht.bindings tableHash) r⟩] ∧
      after.Wf tableHash ∧
      after.bindings tableHash = mapAfter r.action r.key r.value (server.ht.bindings tableHash)) ∧
    (∀ hash tbl, Storable hash tbl →
      extMsgLen (responseTo (tbl.bindings hash) r) = (responseTo (tbl.bindings hash) r).length) ∧
    (∀ hash, Storable hash htCreate) ∧
    (∀ stack tbl s, Storable sizeHash tbl → Storable sizeHash (serve stack tbl s).1) ∧
    ∀ heap (server server' : Server) d sends, Storable tableHash server.ht →
      react heap server d = .handled server' sends → Storable tableHash server'.ht := by
  refine ⟨fun stack tbl rest ending hwf => serve_encode hwf stack r hkey rest ending,
    fun heap server d hwf hpending hd howner => ?_, fun hash tbl h => extMsgLen_responseTo r h.value_lt,
    fun hash => storable_htCreate, fun stack tbl s h => h.serve stack s,
    fun heap server server' d sends h => h.react⟩
  obtain ⟨hafter, hmap⟩ := processRequest_table hwf r.action r.key r.value r.transactionId
  refine ⟨_, ?_, hafter, hmap⟩
  rw [react_request heap server r d hd hpending, handleExtMsg_encode heap server r d hd, if_pos howner,
    ← processRequest_response hwf]
  rfl

theorem oneByte_lt : ([97] : Bytes).length < 65536 := by decide

/-- SET and GET for a key and a value of one byte. -/
def setGetRequest : Request := ⟨6, 2, [97], [97], by decide, oneByte_lt, oneByte_lt⟩

theorem request_semantics_setGet :
    (serve zeroStack htCreate ⟨setGetRequest.encode, .closed⟩).2 =
      some [14, 2, 0, 1, 0, 1, 97, 97] := by
  obtain ⟨after, heq, -⟩ := (request_semantics setGetRequest (by decide)).1 zeroStack htCreate [] .closed
    (wf_htCreate _)
  rw [List.append_nil] at heq
  rw [heq]
  change some (responseTo (htCreate.bindings sizeHash) setGetRequest) = _
  decide

end ComputerNetworking.Tcp
