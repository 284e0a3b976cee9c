import ComputerNetworking.TcpServer

/-! The client that stores films in the hash table server (`Movie Parser/client.c`).

A film is a title and `N_FIELDS` fields. A `char *` is the memory that it points to, up to where it may
be read, so that a string is followed by a zero and by anything else. The request is written into zeroed
memory at running offsets; the field lengths and the offset behind them are of type `uint16_t`. -/

namespace ComputerNetworking.FilmClient

open Dht Datagrams Tcp

/-! ### Memory -/

/-- `memcpy` to an offset. -/
def writeAt (mem : Nat → UInt8) (offset : Nat) (data : Bytes) : Nat → UInt8 :=
  fun i => if offset ≤ i ∧ i < offset + data.length then data.getD (i - offset) 0 else mem i

def strlen (str : Bytes) : Nat := (str.takeWhile (· ≠ 0)).length

/-- A string in memory. -/
def IsString (mem str : Bytes) : Prop := 0 ∉ str ∧ ∃ rest, mem = str ++ 0 :: rest

/-! ### Films and requests -/

/-- `N_FIELDS`. -/
def nFields : Nat := 5

/-- `film`. -/
structure Film where
  title : Bytes
  fields : Fin nFields → Bytes
  deriving DecidableEq

/-- One turn of the loop of `build_request` that marshals the fields: the memory and `value_len`. -/
def marshalField (cur : Nat) (state : (Nat → UInt8) × UInt16) (val : Bytes) : (Nat → UInt8) × UInt16 :=
  let fieldLen := strlen val
  let request := writeAt state.1 (cur + state.2.toNat) (bytesOfUInt16 (UInt16.ofNat fieldLen))
  let valueLen := state.2 + 2
  (writeAt request (cur + valueLen.toNat) (val.take fieldLen), valueLen + UInt16.ofNat fieldLen)

/-- `build_request`: the bytes of the buffer up to `*len`. -/
def buildRequest (action transactionId : UInt8) (key : Bytes) (val : Option (Fin nFields → Bytes)) : Bytes :=
  let request := writeAt zeroed 0 [action]
  let request := writeAt request 1 [transactionId]
  let keyLen := UInt16.ofNat (strlen key)
  let request := writeAt request 2 (bytesOfUInt16 keyLen)
  let request := writeAt request 6 (key.take keyLen.toNat)
  let cur := 6 + keyLen.toNat
  match val with
  | none => (List.range cur).map (writeAt request 4 (bytesOfUInt16 0))
  | some val =>
      let (request, valueLen) := (List.ofFn val).foldl (marshalField cur) (request, 0)
      (List.range (cur + valueLen.toNat)).map (writeAt request 4 (bytesOfUInt16 valueLen))

/-! ### Responses -/

/-- The length of the field at an offset of the value buffer. -/
def fieldLenAt (buffer : Nat → UInt8) (cur : Nat) : Nat :=
  (uint16At [buffer cur, buffer (cur + 1)] 0).toNat

/-- Where `cur_val` points when a field is unmarshalled. -/
def curVal (buffer : Nat → UInt8) : Nat → Nat
  | 0 => 0
  | i + 1 => curVal buffer i + 2 + fieldLenAt buffer (curVal buffer i)

/-- The field that is unmarshalled from an offset. -/
def fieldAt (buffer : Nat → UInt8) (cur : Nat) : Bytes :=
  (List.range (fieldLenAt buffer cur)).map (fun i => buffer (cur + 2 + i)) ++ [0]

/-- What one turn of the loop of `perform_action` meets: `connect` or `send` fails, or the request is
sent, and the server answers with a stream. `header` is what `msg_buffer` holds before, `heap` what is in
memory behind the value buffer. -/
inductive Attempt where
  | refused
  | sent (header heap : Nat → UInt8) (answer : Stream)

/-- One turn of the loop: `none` if it retries, else what it puts into `*f`. -/
def attempt (action : UInt8) : Attempt → Option (Option Film)
  | .refused => none
  | .sent header heap answer =>
      match recvWaitall headerLen answer with
      | (none, _) => none
      | (some data, answer) =>
          let msgBuffer := recvInto header headerLen data
          if msgBuffer.getD 0 0 &&& action = 0 then none
          else
            let keyLen := (uint16At msgBuffer 2).toNat
            let valLen := (uint16At msgBuffer 4).toNat
            match recvWaitall keyLen answer with
            | (none, _) => none
            | (some key, answer) =>
                match recvWaitall valLen answer with
                | (none, _) => none
                | (some val, _) =>
                    let keyBuffer := recvInto zeroed keyLen key
                    let valBuffer := fun i => if i < valLen then val.getD i 0 else heap i
                    if action &&& getMask ≠ 0 ∧ valLen > 0 then
                      some (some ⟨keyBuffer ++ [0], fun i => fieldAt valBuffer (curVal valBuffer i)⟩)
                    else some none

/-- `RETRIES`. -/
def retries : Nat := 5

/-- The loop of `perform_action`, with the number of turns left. -/
def tryAttempts (action : UInt8) : Nat → (Nat → Attempt) → Option (Option Film)
  | 0, _ => none
  | n + 1, attempts =>
      match attempt action (attempts 0) with
      | some f => some f
      | none => tryAttempts action n fun i => attempts (i + 1)

/-- `perform_action`: the status, `*f` and `transaction_id`; `none` if its assertion fails. `exchange` is
what each turn meets when it sends the request. -/
def performAction (action transactionId : UInt8) (key : Bytes) (val : Option (Fin nFields → Bytes))
    (exchange : Nat → Bytes → Attempt) : Option (Int × Option Film × UInt8) :=
  if action &&& setMask ≠ 0 ∧ val.isNone then none
  else
    let request := buildRequest action transactionId key val
    match tryAttempts action retries fun i => exchange i request with
    | some f => some (0, f, transactionId)
    | none => some (-1, none, transactionId + 1)

/-! ### Marshalling -/

section Marshalling

variable (mem : Nat → UInt8) (offset : Nat) (data data' : Bytes)

theorem writeAt_nil : writeAt mem offset [] = mem := by
  funext i
  rw [writeAt, if_neg (by simp)]

theorem writeAt_append :
    writeAt (writeAt mem offset data) (offset + data.length) data' = writeAt mem offset (data ++ data') := by
  funext i
  simp only [writeAt, List.length_append]
  by_cases hsecond : offset + data.length ≤ i ∧ i < offset + data.length + data'.length
  · rw [if_pos hsecond, if_pos (by omega), List.getD_append_right _ _ _ _ (by omega)]
    congr 1
    omega
  · rw [if_neg hsecond]
    by_cases hfirst : offset ≤ i ∧ i < offset + data.length
    · rw [if_pos hfirst, if_pos (by omega), List.getD_append _ _ _ _ (by omega)]
    · rw [if_neg hfirst, if_neg (by omega)]

/-- What is written into the gap before other data. -/
theorem writeAt_comm : writeAt (writeAt mem (offset + data.length) data') offset data =
    writeAt (writeAt mem offset data) (offset + data.length) data' := by
  funext i
  simp only [writeAt]
  by_cases hfirst : offset ≤ i ∧ i < offset + data.length
  · rw [if_pos hfirst, if_neg (by omega), if_pos hfirst]
  · rw [if_neg hfirst, if_neg hfirst]

theorem range_map_writeAt :
    (List.range data.length).map (writeAt mem 0 data) = data := by
  refine List.ext_getElem (by simp) fun i hi hi' => ?_
  rw [List.getElem_map, List.getElem_range, writeAt, if_pos (by omega)]
  exact List.getD_eq_getElem data 0 hi'

end Marshalling

theorem IsString.strlen {mem str : Bytes} (h : IsString mem str) : strlen mem = str.length := by
  obtain ⟨hnul, rest, rfl⟩ := h
  have hne : ∀ c ∈ str, (decide (c ≠ 0)) = true := by
    intro c hc
    rw [decide_eq_true_eq]
    rintro rfl
    exact hnul hc
  rw [FilmClient.strlen, List.takeWhile_append_of_pos hne]
  simp

theorem IsString.take {mem str : Bytes} (h : IsString mem str) : mem.take (FilmClient.strlen mem) = str := by
  rw [h.strlen]
  obtain ⟨-, rest, rfl⟩ := h
  exact List.take_left

/-- A field as it is marshalled. -/
def encodeField (field : Bytes) : Bytes := bytesOfUInt16 (UInt16.ofNat field.length) ++ field

def encodeFields (fields : List Bytes) : Bytes := fields.flatMap encodeField

theorem length_encodeField (field : Bytes) : (encodeField field).length = 2 + field.length := by
  rw [encodeField, List.length_append]
  rfl

theorem length_encodeFields (fields : List Bytes) :
    (encodeFields fields).length = (fields.map fun field => 2 + field.length).sum := by
  rw [encodeFields, List.length_flatMap]
  congr 1
  exact List.map_congr_left fun field _ => length_encodeField field

theorem encodeFields_ne_nil {fields : List Bytes} (h : fields ≠ []) : encodeFields fields ≠ [] := by
  cases fields with
  | nil => exact absurd rfl h
  | cons field fields => exact List.cons_ne_nil _ _

/-- The loop of `build_request` writes the marshalled fields one after the other. -/
theorem foldl_marshalField {cur : Nat} {vals fields : List Bytes}
    (hstrings : List.Forall₂ IsString vals fields) (mem : Nat → UInt8) (valueLen : UInt16)
    (hfits : valueLen.toNat + (encodeFields fields).length < 65536) :
    vals.foldl (marshalField cur) (mem, valueLen) =
      (writeAt mem (cur + valueLen.toNat) (encodeFields fields),
        valueLen + UInt16.ofNat (encodeFields fields).length) := by
  induction hstrings generalizing mem valueLen with
  | nil =>
      rw [encodeFields, List.flatMap_nil, writeAt_nil]
      simp
  | @cons val field vals fields hval hvals ih =>
      have hlength : (encodeFields (field :: fields)).length =
          2 + field.length + (encodeFields fields).length := by
        rw [encodeFields, List.flatMap_cons, List.length_append, length_encodeField]
        rfl
      rw [hlength] at hfits
      have htwo : (valueLen + 2).toNat = valueLen.toNat + 2 := by
        rw [UInt16.toNat_add]
        exact Nat.mod_eq_of_lt (by change valueLen.toNat + 2 < 65536; omega)
      have hnext : (valueLen + 2 + UInt16.ofNat field.length).toNat = valueLen.toNat + (2 + field.length) := by
        rw [UInt16.toNat_add, htwo, toNat_ofNat_uint16 (by omega)]
        rw [Nat.mod_eq_of_lt (by change _ < 65536; omega)]
        omega
      have hturn : marshalField cur (mem, valueLen) val =
          (writeAt mem (cur + valueLen.toNat) (encodeField field),
            valueLen + 2 + UInt16.ofNat field.length) := by
        have hlen : (bytesOfUInt16 (UInt16.ofNat field.length)).length = 2 := rfl
        simp only [marshalField]
        rw [hval.take, hval.strlen, htwo, ← Nat.add_assoc, ← hlen, writeAt_append]
        rfl
      rw [List.foldl_cons, hturn, ih _ _ (by omega), hnext, ← Nat.add_assoc, ← length_encodeField,
        writeAt_append, hlength]
      refine Prod.ext rfl ?_
      apply UInt16.toNat_inj.mp
      rw [UInt16.toNat_add, hnext, UInt16.toNat_add, toNat_ofNat_uint16 (by omega),
        toNat_ofNat_uint16 (by omega)]
      congr 1
      omega

/-- The header and the body of a request in memory, the length of the value written last. -/
theorem range_map_request (action transactionId : UInt8) (keyLen valueLen : UInt16) (body : Bytes) :
    (List.range (6 + body.length)).map (writeAt (writeAt (writeAt (writeAt (writeAt zeroed 0 [action]) 1
      [transactionId]) 2 (bytesOfUInt16 keyLen)) 6 body) 4 (bytesOfUInt16 valueLen)) =
        action :: transactionId :: bytesOfUInt16 keyLen ++ bytesOfUInt16 valueLen ++ body := by
  have htwo : writeAt (writeAt zeroed 0 [action]) 1 [transactionId] =
      writeAt zeroed 0 [action, transactionId] := writeAt_append zeroed 0 [action] [transactionId]
  have hfour : writeAt (writeAt zeroed 0 [action, transactionId]) 2 (bytesOfUInt16 keyLen) =
      writeAt zeroed 0 (action :: transactionId :: bytesOfUInt16 keyLen) :=
    writeAt_append zeroed 0 [action, transactionId] (bytesOfUInt16 keyLen)
  have hgap := writeAt_comm (writeAt zeroed 0 (action :: transactionId :: bytesOfUInt16 keyLen)) 4
    (bytesOfUInt16 valueLen) body
  have hsix := writeAt_append zeroed 0 (action :: transactionId :: bytesOfUInt16 keyLen)
    (bytesOfUInt16 valueLen)
  have hall := writeAt_append zeroed 0
    (action :: transactionId :: bytesOfUInt16 keyLen ++ bytesOfUInt16 valueLen) body
  have hrange := range_map_writeAt zeroed
    (action :: transactionId :: bytesOfUInt16 keyLen ++ bytesOfUInt16 valueLen ++ body)
  rw [htwo, hfour]
  refine Eq.trans ?_ hrange
  refine congrArg₂ _ (hgap.trans ?_) ?_
  · exact (congrArg (writeAt · _ body) hsix).trans hall
  · congr 1
    simp [bytesOfUInt16]
    omega

/-- `build_request` builds the message of the server, as long as the lengths fit their fields. -/
theorem buildRequest_none {key title : Bytes} (hkey : IsString key title) (hlength : title.length < 65536)
    (action transactionId : UInt8) :
    buildRequest action transactionId key none = extMsg action transactionId title [] := by
  have hkeyLen : (UInt16.ofNat title.length).toNat = title.length := toNat_ofNat_uint16 hlength
  have htake : key.take title.length = title := hkey.strlen ▸ hkey.take
  have hrequest := range_map_request action transactionId (UInt16.ofNat title.length) 0 title
  unfold buildRequest
  simp only [hkey.strlen, hkeyLen, htake]
  rw [hrequest, extMsg, List.append_nil]
  rfl

theorem buildRequest_some {key title : Bytes} {val fields : Fin nFields → Bytes} (hkey : IsString key title)
    (hlength : title.length < 65536) (hval : ∀ i, IsString (val i) (fields i))
    (hfits : (encodeFields (List.ofFn fields)).length < 65536) (action transactionId : UInt8) :
    buildRequest action transactionId key (some val) =
      extMsg action transactionId title (encodeFields (List.ofFn fields)) := by
  have hkeyLen : (UInt16.ofNat title.length).toNat = title.length := toNat_ofNat_uint16 hlength
  have htake : key.take title.length = title := hkey.strlen ▸ hkey.take
  have hstrings : List.Forall₂ IsString (List.ofFn val) (List.ofFn fields) := by
    rw [List.forall₂_iff_get]
    exact ⟨by simp, fun i hi hi' => by simpa using hval ⟨i, by simpa using hi⟩⟩
  have hmarshal (mem : Nat → UInt8) : (List.ofFn val).foldl (marshalField (6 + title.length)) (mem, 0) = _ :=
    foldl_marshalField hstrings mem 0 (by simpa using hfits)
  have hrequest := range_map_request action transactionId (UInt16.ofNat title.length)
    (UInt16.ofNat (encodeFields (List.ofFn fields)).length) (title ++ encodeFields (List.ofFn fields))
  have hvalueLen : (0 + UInt16.ofNat (encodeFields (List.ofFn fields)).length).toNat =
      (encodeFields (List.ofFn fields)).length := by
    rw [UInt16.zero_add, toNat_ofNat_uint16 hfits]
  rw [List.length_append, ← Nat.add_assoc] at hrequest
  unfold buildRequest
  simp only [hkey.strlen, hkeyLen, htake, hmarshal, hvalueLen]
  rw [UInt16.zero_add]
  change List.map (writeAt (writeAt (writeAt _ 6 title) (6 + title.length) _) 4 _) _ = _
  rw [writeAt_append, hrequest, extMsg, List.append_assoc _ title]

/-! ### Unmarshalling -/

section Unmarshalling

variable {buffer : Nat → UInt8}

/-- A field is unmarshalled from where it has been marshalled. -/
theorem fieldAt_encodeField {before after field : Bytes} (hfield : field.length < 65536)
    (hbuffer : ∀ i < (before ++ encodeField field ++ after).length,
      buffer i = (before ++ encodeField field ++ after).getD i 0) :
    fieldLenAt buffer before.length = field.length ∧ fieldAt buffer before.length = field ++ [0] := by
  have hbyte {i : Nat} (hi : i < 2 + field.length) :
      buffer (before.length + i) = (encodeField field).getD i 0 := by
    have hlength := length_encodeField field
    rw [hbuffer _ (by simp only [List.length_append]; omega), List.append_assoc,
      List.getD_append_right _ _ _ _ (by omega), List.getD_append _ _ _ _ (by omega)]
    congr 1
    omega
  have hlen : fieldLenAt buffer before.length = field.length := by
    have hzero : buffer before.length = (encodeField field).getD 0 0 := hbyte (i := 0) (by omega)
    rw [fieldLenAt, hzero, hbyte (by omega)]
    exact (congrArg UInt16.toNat (uint16_of_bytes _)).trans (toNat_ofNat_uint16 hfield)
  refine ⟨hlen, ?_⟩
  rw [fieldAt, hlen]
  congr 1
  refine List.ext_getElem (by simp) fun i hi hi' => ?_
  rw [List.getElem_map, List.getElem_range, Nat.add_assoc, hbyte (by omega)]
  exact (List.getD_append_right _ _ _ _ (by simp [bytesOfUInt16])).trans
    ((congrArg (field.getD · 0) (Nat.add_sub_cancel_left 2 i)).trans (List.getD_eq_getElem field 0 hi'))

theorem encodeFields_split (fields : List Bytes) (i : Nat) (hi : i < fields.length) : encodeFields fields =
    encodeFields (fields.take i) ++ encodeField fields[i] ++ encodeFields (fields.drop (i + 1)) := by
  simp only [encodeFields]
  rw [List.append_assoc, ← List.flatMap_cons, ← List.flatMap_append, List.cons_getElem_drop_succ,
    List.take_append_drop]

section Fields

variable {fields : List Bytes} (hfits : (encodeFields fields).length < 65536)
  (hbuffer : ∀ i < (encodeFields fields).length, buffer i = (encodeFields fields).getD i 0)

include hfits hbuffer

theorem fieldAt_of_fields (i : Nat) (hi : i < fields.length) :
    fieldLenAt buffer (encodeFields (fields.take i)).length = fields[i].length ∧
      fieldAt buffer (encodeFields (fields.take i)).length = fields[i] ++ [0] := by
  have hsplit := encodeFields_split fields i hi
  rw [hsplit] at hbuffer
  refine fieldAt_encodeField ?_ hbuffer
  rw [hsplit, List.length_append, List.length_append, length_encodeField] at hfits
  omega

/-- `cur_val` goes from field to field. -/
theorem curVal_encodeFields {i : Nat} (hle : i ≤ fields.length) :
    curVal buffer i = (encodeFields (fields.take i)).length := by
  induction i with
  | zero => rfl
  | succ i ih =>
      have htake : encodeFields (fields.take (i + 1)) =
          encodeFields (fields.take i) ++ encodeField fields[i] := by
        rw [List.take_succ_eq_append_getElem hle, encodeFields, List.flatMap_append]
        simp [encodeFields]
      rw [curVal, ih (Nat.le_of_succ_le hle), (fieldAt_of_fields hfits hbuffer i hle).1, htake,
        List.length_append, length_encodeField]
      omega

/-- The loop of `perform_action` finds the fields that have been marshalled. -/
theorem fieldAt_curVal (i : Nat) (hi : i < fields.length) : fieldAt buffer (curVal buffer i) = fields[i] ++ [0] := by
  rw [curVal_encodeFields hfits hbuffer hi.le]
  exact (fieldAt_of_fields hfits hbuffer i hi).2

end Fields

end Unmarshalling

/-! ### Round trip -/

/-- A turn of the loop that gets a value decodes it. -/
theorem attempt_extMsg {action kept : UInt8} (hkept : kept &&& action ≠ 0) (hget : action &&& getMask ≠ 0)
    {key value : Bytes} (hkey : key.length < 65536) (hvalue : value.length < 65536) (hne : value ≠ [])
    (transactionId : UInt8) (header heap : Nat → UInt8) (ending : Ending) :
    attempt action (.sent header heap ⟨extMsg kept transactionId key value, ending⟩) =
      let valBuffer := fun i => if i < value.length then value.getD i 0 else heap i
      some (some ⟨key ++ [0], fun i => fieldAt valBuffer (curVal valBuffer i)⟩) := by
  have hstream : extMsg kept transactionId key value =
      headerOf kept transactionId key value ++ (key ++ (value ++ [])) := by
    rw [extMsg_eq_headerOf, List.append_nil]
  have hfirst : (headerOf kept transactionId key value).getD 0 0 = kept := rfl
  rw [attempt, hstream, length_headerOf kept transactionId key value, recvWaitall_append]
  dsimp only
  rw [recvInto_self, hfirst, if_neg hkept, headerOf_keyLen _ _ hkey, headerOf_valueLen _ _ _ hvalue,
    recvWaitall_append]
  dsimp only
  rw [recvWaitall_append, recvInto_self]
  dsimp only
  rw [if_pos ⟨hget, List.length_pos_iff.mpr hne⟩]

theorem tryAttempts_eq {action : UInt8} {n i : Nat} {attempts : Nat → Attempt} {f : Option Film} (hi : i < n)
    (hretry : ∀ j < i, attempt action (attempts j) = none) (hlast : attempt action (attempts i) = some f) :
    tryAttempts action n attempts = some f := by
  induction n generalizing i attempts with
  | zero => exact absurd hi (Nat.not_lt_zero i)
  | succ n ih =>
      unfold tryAttempts
      cases i with
      | zero => rw [hlast]
      | succ i =>
          rw [hretry 0 (Nat.zero_lt_succ i)]
          exact ih (by omega) (fun j hj => hretry (j + 1) (by omega)) hlast

/-- A connection on which the title is neither set nor deleted. -/
def Spares (title : Bytes) (connection : Stack × Stream) : Prop :=
  ∀ r, recvRequest connection.1 connection.2 = some r → r.key = title →
    r.action &&& deleteMask = 0 ∧ r.action &&& setMask = 0

/-- The table after connections. -/
def serveAll (tbl : HashTable) (connections : List (Stack × Stream)) : HashTable :=
  connections.foldl (fun tbl connection => (serve connection.1 tbl connection.2).1) tbl

theorem serveAll_spares {tbl : HashTable} (hwf : tbl.Wf sizeHash) {title : Bytes}
    {connections : List (Stack × Stream)} (h : ∀ c ∈ connections, Spares title c) :
    (serveAll tbl connections).Wf sizeHash ∧
      (serveAll tbl connections).bindings sizeHash title = tbl.bindings sizeHash title := by
  induction connections generalizing tbl with
  | nil => exact ⟨hwf, rfl⟩
  | cons c connections ih =>
      rw [List.forall_mem_cons] at h
      have hserve : (serve c.1 tbl c.2).1.Wf sizeHash ∧
          (serve c.1 tbl c.2).1.bindings sizeHash title = tbl.bindings sizeHash title := by
        unfold serve
        cases hrecv : recvRequest c.1 c.2 with
        | none => exact ⟨hwf, rfl⟩
        | some r =>
            obtain ⟨hafter, hmap⟩ := processRequest_table hwf r.action r.key r.value r.transactionId
            refine ⟨hafter, (congrFun hmap title).trans ?_⟩
            by_cases hkey : r.key = title
            · obtain ⟨hdelete, hset⟩ := h.1 r hrecv hkey
              rw [mapAfter_of_clear hdelete hset]
            · exact mapAfter_of_ne (Ne.symm hkey) _ _ _
      obtain ⟨hafter, hmap⟩ := ih hserve.1 h.2
      exact ⟨hafter, hmap.trans hserve.2⟩

/-- The request that sets a title to fields, as the server takes it. -/
theorem buildRequest_set {title : Bytes} {fields val : Fin nFields → Bytes} {key : Bytes}
    (hlength : title.length < 65536) (hfits : (encodeFields (List.ofFn fields)).length < 65536)
    (hkey : IsString key title) (hval : ∀ i, IsString (val i) (fields i)) (transactionId : UInt8) :
    buildRequest setMask transactionId key (some val) =
      (⟨setMask, transactionId, title, encodeFields (List.ofFn fields), by decide, hlength, hfits⟩ :
        Request).encode :=
  buildRequest_some hkey hlength hval hfits setMask transactionId

theorem buildRequest_get {title : Bytes} {key : Bytes} (hlength : title.length < 65536)
    (hkey : IsString key title) (transactionId : UInt8) : buildRequest getMask transactionId key none =
      (⟨getMask, transactionId, title, [], by decide, hlength, Nat.zero_lt_succ _⟩ : Request).encode :=
  buildRequest_none hkey hlength getMask transactionId

/-- **Round trip of a film.** A film is stored by a request that the server serves on any table. Then,
after connections that spare its title, the server answers the request for the title, and the client
decodes from the answer the film that was stored, byte for byte, in whatever turn it gets the answer. -/
theorem film_round_trip {title : Bytes} {fields : Fin nFields → Bytes} (hne : title ≠ [])
    (hlength : title.length ≤ 65535)
    (hsize : ((List.ofFn fields).map fun field => 2 + field.length).sum ≤ 65535)
    {key key' : Bytes} {val : Fin nFields → Bytes} (hkey : IsString key title) (hkey' : IsString key' title)
    (hval : ∀ i, IsString (val i) (fields i)) {tbl : HashTable} (hwf : tbl.Wf sizeHash)
    (stack stack' : Stack) (ending ending' : Ending) (transactionId transactionId' : UInt8)
    {others : List (Stack × Stream)} (hothers : ∀ c ∈ others, Spares title c) :
    let stored := (serve stack tbl ⟨buildRequest setMask transactionId key (some val), ending⟩).1
    let request := buildRequest getMask transactionId' key' none
    ∃ response, (serve stack' (serveAll stored others) ⟨request, ending'⟩).2 = some response ∧
      ∀ (exchange : Nat → Bytes → Attempt) (i : Nat) header heap ending, i < retries →
        (∀ j < i, attempt getMask (exchange j request) = none) →
        exchange i request = .sent header heap ⟨response, ending⟩ →
        performAction getMask transactionId' key' none exchange =
          some (0, some ⟨title ++ [0], fun i => fields i ++ [0]⟩, transactionId') := by
  intro stored request
  have htitle : title.length < 65536 := Nat.lt_succ_of_le hlength
  have hfits : (encodeFields (List.ofFn fields)).length < 65536 := by
    rw [length_encodeFields]
    exact Nat.lt_succ_of_le hsize
  obtain ⟨after, hset, hafter, hmap⟩ := serve_encode hwf stack ⟨setMask, transactionId, title,
    encodeFields (List.ofFn fields), by decide, htitle, hfits⟩ hne [] ending
  rw [List.append_nil, ← buildRequest_set htitle hfits hkey hval] at hset
  have hstored : stored = after := congrArg Prod.fst hset
  obtain ⟨hlater, hfound⟩ := serveAll_spares hafter hothers
  have hbound : (serveAll stored others).bindings sizeHash title =
      some (encodeFields (List.ofFn fields)) := by
    rw [hstored, hfound, hmap, mapAfter_set, Function.update_self]
  obtain ⟨last, hget, -⟩ := serve_encode (hstored ▸ hlater) stack' ⟨getMask, transactionId', title, [],
    by decide, htitle, Nat.zero_lt_succ _⟩ hne [] ending'
  rw [List.append_nil, ← buildRequest_get htitle hkey'] at hget
  have hresponse := responseTo_get (r := ⟨getMask, transactionId', title, [], by decide, htitle,
    Nat.zero_lt_succ _⟩) rfl hbound
  refine ⟨_, congrArg Prod.snd hget, fun exchange i header heap ending hi hretry hanswer => ?_⟩
  rw [hresponse] at hanswer
  have hpos : encodeFields (List.ofFn fields) ≠ [] := by
    apply encodeFields_ne_nil
    apply List.ne_nil_of_length_pos
    rw [List.length_ofFn]
    decide
  have hlast := @attempt_extMsg getMask (acknowledgmentMask ||| getMask) (by decide) (by decide) _ _ htitle
    hfits hpos transactionId' header heap ending
  rw [← hanswer] at hlast
  have hno : ¬(getMask &&& setMask ≠ 0 ∧ (none : Option (Fin nFields → Bytes)).isNone) := by decide
  have htry : (tryAttempts getMask retries fun i => exchange i request) = _ :=
    tryAttempts_eq hi hretry hlast
  rw [performAction, if_neg hno]
  dsimp only
  rw [htry]
  have hfield (i : Fin nFields) := @fieldAt_curVal (fun i =>
    if i < (encodeFields (List.ofFn fields)).length then (encodeFields (List.ofFn fields)).getD i 0
    else heap i) _ hfits (fun i hi => if_pos hi) i (by simp)
  simp only [List.getElem_ofFn] at hfield
  simp only [hfield]

theorem oneByte_isString : IsString [97, 0] [97] := ⟨by decide, [], rfl⟩

theorem film_round_trip_oneByte : ∃ response,
    (serve zeroStack (serveAll (serve zeroStack htCreate
      ⟨buildRequest setMask 0 [97, 0] (some fun _ => [97, 0]), .closed⟩).1 [])
        ⟨buildRequest getMask 1 [97, 0] none, .closed⟩).2 = some response ∧
    performAction getMask 1 [97, 0] none (fun _ _ => .sent zeroed zeroed ⟨response, .closed⟩) =
      some (0, some ⟨[97, 0], fun _ => [97, 0]⟩, 1) := by
  obtain ⟨response, hserved, hdecoded⟩ := @film_round_trip [97] (fun _ => [97]) (by decide) (by decide)
    (by decide) _ _ _ oneByte_isString oneByte_isString (fun _ => oneByte_isString) htCreate
    (wf_htCreate sizeHash) zeroStack zeroStack .closed .closed 0 1 [] (by simp)
  exact ⟨response, hserved, hdecoded _ 0 zeroed zeroed .closed (by decide) (by simp) rfl⟩

end ComputerNetworking.FilmClient
