import ComputerNetworking.FilmFile

/-! A client that sends the lines of a file as keys and values (`client_malte.c`).

The first token of a line is the key, what stands behind its semicolon is the value. The length of the
marshalled value is computed from the number of semicolons, its contents are written token by token. -/

namespace ComputerNetworking.MalteClient

open Dht FilmClient Strtok

/-! ### Reading and marshalling -/

/-- `MAX_MSG_LEN`. -/
def maxMsgLen : Nat := 4096

/-- `HEADER_LEN`. -/
def headerLen : Nat := 6

/-- The body of the loop of `read_file`: the memory that `key` and `value` point to. -/
def readLine (line : Bytes) : Option (Option Bytes × Option Bytes) :=
  if line.length ≤ maxMsgLen then
    (strtok 0 [semicolon] ⟨line ++ [0], 0⟩).bind fun (key, t) =>
      (strtok 0 [] t).map fun (value, t) => (key.map (t.mem.drop ·), value.map (t.mem.drop ·))
  else none

/-- The loop that counts the separators; its index is a `uint16_t`, so that it does not end for a longer
value. -/
def countEntries (value : Bytes) : Nat → UInt16 → UInt16 → Option UInt16
  | 0, _, _ => none
  | rounds + 1, i, entries =>
      if i.toNat < strlen value then
        countEntries value rounds (i + 1) (if value.getD i.toNat 0 = semicolon then entries + 1 else entries)
      else some entries

/-- One turn of the loop over the tokens: `value_marshalled` and `copied`. -/
def marshalToken (state : (Nat → UInt8) × UInt16) (token : Bytes) : (Nat → UInt8) × UInt16 :=
  let tokenLen := UInt16.ofNat (strlen (token ++ [0]))
  let valueMarshalled := writeAt state.1 state.2.toNat (bytesOfUInt16 tokenLen)
  let copied := state.2 + 2
  (writeAt valueMarshalled copied.toNat (token.take tokenLen.toNat), copied + tokenLen)

/-- What `marshall` computes: the number of bytes that its loop has written, and the message. -/
structure Marshalled where
  copied : UInt16
  message : Bytes
  deriving DecidableEq, Repr

/-- `marshall`, up to sending the message. -/
def marshall (header key value : Bytes) : Option Marshalled :=
  let keyLen := UInt16.ofNat (strlen key)
  (countEntries value (strlen value + 1) 0 0).bind fun entries =>
    let valueLen := UInt16.ofNat (strlen value + 2 * (entries.toNat + 1) - entries.toNat)
    (strtokLoop 0 [semicolon] (value.length + 1) ⟨value, 0⟩).map fun tokens =>
      let (valueMarshalled, copied) := tokens.foldl marshalToken (zeroed, 0)
      let header := header.take 2 ++ bytesOfUInt16 keyLen ++ bytesOfUInt16 valueLen
      ⟨copied, header ++ key.take keyLen.toNat ++ (List.range valueLen.toNat).map valueMarshalled⟩

/-- `set`: the message and `transaction_id`. -/
def set (transactionId : UInt8) (key value : Bytes) : Option Marshalled × UInt8 :=
  (marshall [setMask, transactionId, 0, 0, 0, 0] key value, transactionId + 1)

/-! ### What the receiver expects -/

/-- The pieces of the value between the semicolons. -/
def pieces (value : Bytes) : List Bytes := (value.take (strlen value)).splitOn semicolon

/-- The fields in a value, each behind its length, with nothing left over. -/
def decodeFields : Nat → Bytes → Option (List Bytes)
  | _, [] => some []
  | 0, _ => none
  | rounds + 1, value =>
      let len := (uint16At value 0).toNat
      if 2 + len ≤ value.length then
        (decodeFields rounds (value.drop (2 + len))).map ((value.drop 2).take len :: ·)
      else none

/-- The length of the value that the header of a message declares. -/
def declaredLen (message : Bytes) : Nat := (uint16At message 4).toNat

/-- The value in a message. -/
def valueOf (message : Bytes) : Bytes :=
  (message.drop (headerLen + (uint16At message 2).toNat)).take (declaredLen message)

def decodeValue (message : Bytes) : Option (List Bytes) :=
  decodeFields (valueOf message).length (valueOf message)

/-! ### The two computations of the length -/

section Lengths

variable {value str : Bytes}

theorem countEntries_eq (hvalue : IsString value str) (hlength : str.length < 65536) {i rounds : Nat}
    (hi : i ≤ str.length) (hrounds : str.length - i < rounds) (entries : UInt16) :
    countEntries value rounds (UInt16.ofNat i) entries =
      some (entries + UInt16.ofNat ((str.drop i).count semicolon)) := by
  induction rounds generalizing i entries with
  | zero => omega
  | succ rounds ih =>
      rw [countEntries, hvalue.strlen, toNat_ofNat_uint16 (by omega)]
      rcases Nat.lt_or_eq_of_le hi with hlt | rfl
      · have hcell : value.getD i 0 = str[i] := by
          obtain ⟨-, rest, rfl⟩ := hvalue
          rw [List.getD_append _ _ _ _ hlt, List.getD_eq_getElem _ _ hlt]
        have hnext : UInt16.ofNat i + 1 = UInt16.ofNat (i + 1) := (UInt16.ofNat_add i 1).symm
        rw [if_pos hlt, hnext, ih hlt (by omega), hcell, List.drop_eq_getElem_cons hlt, List.count_cons]
        by_cases hsep : str[i] = semicolon
        · rw [if_pos hsep, if_pos (beq_iff_eq.mpr hsep), UInt16.ofNat_add, UInt16.add_assoc, UInt16.add_comm 1]
          rfl
        · rw [if_neg hsep, if_neg (by simpa using hsep), Nat.add_zero]
      · simp

/-- Every semicolon begins a new piece. -/
theorem length_splitOn (str : Bytes) : (str.splitOn semicolon).length = str.count semicolon + 1 := by
  induction str with
  | nil => rfl
  | cons c str ih =>
      rw [List.splitOn_cons_eq_if_modifyHead, List.count_cons]
      split
      · rename_i hc
        rw [List.length_cons, ih]
      · rw [List.length_modifyHead, ih]

/-- The pieces and the separators between them. -/
theorem length_intercalate {pieces : List Bytes} (hne : pieces ≠ []) :
    ([semicolon].intercalate pieces).length + 1 = (pieces.map List.length).sum + pieces.length := by
  induction pieces with
  | nil => exact absurd rfl hne
  | cons p pieces ih =>
      cases pieces with
      | nil => simp
      | cons q pieces =>
          have hrest := ih (List.cons_ne_nil _ _)
          rw [List.intercalate_cons_cons, List.map_cons, List.sum_cons, List.length_append, List.length_append,
            List.length_singleton, List.length_cons (a := p)]
          omega

/-- A field for every piece takes what is counted from the semicolons. -/
theorem length_encodeFields_splitOn (str : Bytes) : (encodeFields (str.splitOn semicolon)).length =
    str.length + 2 * (str.count semicolon + 1) - str.count semicolon := by
  have hne := List.splitOn_ne_nil semicolon str
  have hlength := length_intercalate hne
  have hcount := length_splitOn str
  rw [List.intercalate_splitOn] at hlength
  have hsum : ((str.splitOn semicolon).map fun field => 2 + field.length).sum =
      2 * (str.splitOn semicolon).length + ((str.splitOn semicolon).map List.length).sum := by
    rw [List.sum_map_add, List.map_const', List.sum_replicate, smul_eq_mul, Nat.mul_comm]
  rw [length_encodeFields, hsum]
  omega

/-- A field of an empty piece is its length, which is zero. -/
theorem length_encodeFields_filter (fields : List Bytes) : (encodeFields fields).length =
    (encodeFields (fields.filter (· ≠ []))).length + 2 * (fields.filter (· = [])).length := by
  induction fields with
  | nil => rfl
  | cons field fields ih =>
      have hcons (l : List Bytes) : (encodeFields (field :: l)).length =
          2 + field.length + (encodeFields l).length := by
        rw [encodeFields, List.flatMap_cons, List.length_append, length_encodeField]
        rfl
      rw [hcons, ih]
      by_cases hempty : field = []
      · simp [hempty]
        omega
      · simp [hempty, hcons]
        omega

end Lengths

/-! ### The contents -/

section Contents

theorem encodeFields_append (fields fields' : List Bytes) :
    encodeFields (fields ++ fields') = encodeFields fields ++ encodeFields fields' :=
  List.flatMap_append

theorem encodeFields_replicate (k : Nat) :
    encodeFields (List.replicate k []) = List.replicate (2 * k) 0 := by
  induction k with
  | zero => rfl
  | succ k ih =>
      have htwo : 2 * (k + 1) = 2 * k + 1 + 1 := by omega
      rw [htwo, List.replicate_succ, List.replicate_succ, List.replicate_succ, ← ih]
      rfl

theorem length_lt_of_mem {field : Bytes} {fields : List Bytes} (h : field ∈ fields) :
    field.length < (encodeFields fields).length := by
  obtain ⟨before, after, rfl⟩ := List.append_of_mem h
  have hfield := length_encodeField field
  have hlength : (encodeFields (before ++ field :: after)).length =
      (encodeFields before).length + ((encodeField field).length + (encodeFields after).length) := by
    rw [encodeFields_append, List.length_append, encodeFields, encodeFields, List.flatMap_cons,
      List.length_append]
    rfl
  omega

/-- Zeroed memory with data at its front. -/
theorem range_map_padded (data : Bytes) (n : Nat) :
    (List.range (data.length + n)).map (writeAt zeroed 0 data) = data ++ List.replicate n 0 := by
  rw [List.range_add, List.map_append, range_map_writeAt, List.map_map]
  congr 1
  refine List.eq_replicate_iff.mpr ⟨by simp, fun c hc => ?_⟩
  obtain ⟨i, -, rfl⟩ := List.mem_map.mp hc
  rw [Function.comp_apply, writeAt, if_neg (by omega)]
  rfl

theorem marshalToken_eq (state : (Nat → UInt8) × UInt16) {token : Bytes} (hnul : 0 ∉ token)
    (hlength : token.length < 65536) :
    marshalToken state token = marshalField 0 state (token ++ [0]) := by
  have hstring : IsString (token ++ [0]) token := ⟨hnul, [], rfl⟩
  simp only [marshalToken, marshalField]
  rw [hstring.take, hstring.strlen, toNat_ofNat_uint16 hlength, List.take_length, Nat.zero_add, Nat.zero_add]

/-- The loop over the tokens writes one field behind the other. -/
theorem foldl_marshalToken {tokens : List Bytes} (hnul : ∀ token ∈ tokens, 0 ∉ token)
    (hfits : (encodeFields tokens).length < 65536) : tokens.foldl marshalToken (zeroed, 0) =
      (writeAt zeroed 0 (encodeFields tokens), UInt16.ofNat (encodeFields tokens).length) := by
  have hstrings : List.Forall₂ IsString (tokens.map (· ++ [0])) tokens := by
    rw [List.forall₂_map_left_iff, List.forall₂_same]
    exact fun token htoken => ⟨hnul token htoken, [], rfl⟩
  have hfold := @foldl_marshalField 0 _ _ hstrings zeroed 0 (by simpa using hfits)
  rw [List.foldl_map] at hfold
  refine Eq.trans ?_ (hfold.trans ?_)
  · exact List.foldl_ext _ _ _ fun state token htoken =>
      marshalToken_eq state (hnul token htoken) ((length_lt_of_mem htoken).trans hfits)
  · simp

theorem decodeFields_succ (rounds : Nat) {value : Bytes} (hne : value ≠ []) :
    decodeFields (rounds + 1) value =
      if 2 + (uint16At value 0).toNat ≤ value.length then
        (decodeFields rounds (value.drop (2 + (uint16At value 0).toNat))).map
          ((value.drop 2).take (uint16At value 0).toNat :: ·)
      else none := by
  cases value with
  | nil => exact absurd rfl hne
  | cons c value => rfl

/-- Fields of a length that fits are read back. -/
theorem decodeFields_eq {fields : List Bytes} (hshort : ∀ field ∈ fields, field.length < 65536) {rounds : Nat}
    (hrounds : fields.length ≤ rounds) : decodeFields rounds (encodeFields fields) = some fields := by
  induction fields generalizing rounds with
  | nil => cases rounds <;> rfl
  | cons field fields ih =>
      cases rounds with
      | zero => cases hrounds
      | succ rounds =>
          rw [List.forall_mem_cons] at hshort
          have hvalue : encodeFields (field :: fields) =
              bytesOfUInt16 (UInt16.ofNat field.length) ++ (field ++ encodeFields fields) := by
            rw [encodeFields, List.flatMap_cons, encodeField, List.append_assoc]
            rfl
          have hlen : (uint16At (encodeFields (field :: fields)) 0).toNat = field.length := by
            rw [hvalue]
            exact (congrArg UInt16.toNat (uint16_of_bytes _)).trans (toNat_ofNat_uint16 hshort.1)
          have hdrop : (encodeFields (field :: fields)).drop 2 = field ++ encodeFields fields := by
            rw [hvalue]
            rfl
          have hne : encodeFields (field :: fields) ≠ [] := encodeFields_ne_nil (List.cons_ne_nil _ _)
          have hlength : (encodeFields (field :: fields)).length =
              2 + (field.length + (encodeFields fields).length) := by
            rw [hvalue, List.length_append, List.length_append]
            rfl
          rw [decodeFields_succ rounds hne, hlen, if_pos (by omega), ← List.drop_drop, hdrop, List.drop_left,
            List.take_left, ih hshort.2 (Nat.le_of_succ_le_succ hrounds), Option.map_some]

theorem decodeFields_encodeFields {fields : List Bytes} (hfits : (encodeFields fields).length < 65536) :
    decodeFields (encodeFields fields).length (encodeFields fields) = some fields := by
  refine decodeFields_eq (fun field hfield => (length_lt_of_mem hfield).trans hfits) ?_
  rw [length_encodeFields]
  calc fields.length = (fields.map fun field => 2 + field.length).length := (List.length_map _).symm
    _ ≤ (fields.map fun field => 2 + field.length).sum := by
      refine List.length_le_sum_of_one_le _ fun n hn => ?_
      obtain ⟨field, -, rfl⟩ := List.mem_map.mp hn
      omega

end Contents

/-! ### Messages -/

section Messages

variable {line key value str : Bytes}

/-- The pieces that become tokens. -/
def tokensOf (value : Bytes) : List Bytes := (pieces value).filter (· ≠ [])

/-- The number of pieces that do not. -/
def emptyPieces (value : Bytes) : Nat := ((pieces value).filter (· = [])).length

theorem pieces_eq (hvalue : IsString value str) : pieces value = str.splitOn semicolon := by
  rw [pieces, hvalue.take]

theorem length_encodeFields_pieces (hvalue : IsString value str) (hlength : str.length ≤ maxMsgLen) :
    (encodeFields (pieces value)).length = (encodeFields (tokensOf value)).length + 2 * emptyPieces value ∧
      (encodeFields (pieces value)).length < 65536 := by
  have hbound := List.count_le_length (a := semicolon) (l := str)
  refine ⟨length_encodeFields_filter _, ?_⟩
  rw [pieces_eq hvalue, length_encodeFields_splitOn]
  unfold maxMsgLen at hlength
  omega

/-- `marshall` computes the length of a field for every piece, and writes a field for every token; the rest
of the value stays zero. -/
theorem marshall_eq (hvalue : IsString value str) (hlength : str.length ≤ maxMsgLen) (header key : Bytes) :
    marshall header key value = some ⟨UInt16.ofNat (encodeFields (tokensOf value)).length,
      header.take 2 ++ bytesOfUInt16 (UInt16.ofNat (strlen key)) ++
        bytesOfUInt16 (UInt16.ofNat (encodeFields (pieces value)).length) ++
        key.take (UInt16.ofNat (strlen key)).toNat ++
        encodeFields (tokensOf value ++ List.replicate (emptyPieces value) [])⟩ := by
  have hpieces := pieces_eq hvalue
  have hbound := List.count_le_length (a := semicolon) (l := str)
  have hmax : str.length ≤ 4096 := hlength
  have hentries : countEntries value (strlen value + 1) 0 0 = some (UInt16.ofNat (str.count semicolon)) := by
    have hloop := countEntries_eq hvalue (by omega) (Nat.zero_le _)
      (by rw [Nat.sub_zero]; exact Nat.lt_succ_self _) 0
    rw [UInt16.zero_add, List.drop_zero] at hloop
    rw [hvalue.strlen]
    exact hloop
  have hsize := length_encodeFields_splitOn str
  obtain ⟨hsplit, hshort⟩ := length_encodeFields_pieces hvalue hlength
  have hvalueLen : strlen value + 2 * ((UInt16.ofNat (str.count semicolon)).toNat + 1) -
      (UInt16.ofNat (str.count semicolon)).toNat = (encodeFields (pieces value)).length := by
    rw [toNat_ofNat_uint16 (by omega), hvalue.strlen, hpieces, hsize]
  have htokens : strtokLoop 0 [semicolon] (value.length + 1) ⟨value, 0⟩ = some (tokensOf value) := by
    obtain ⟨hnul, rest, rfl⟩ := hvalue
    rw [tokensOf, hpieces]
    refine strtokLoop_eq (by decide) (fun p hp => notMem_of_mem_splitOn hp) ?_ ?_
    · rw [List.intercalate_splitOn]
      exact stringAt_zero hnul rest
    · rw [length_splitOn, List.length_append, List.length_cons]
      omega
  have hnul : ∀ token ∈ tokensOf value, 0 ∉ token := by
    intro token htoken hmem
    rw [tokensOf, hpieces] at htoken
    exact hvalue.1 (mem_of_mem_splitOn (List.mem_of_mem_filter htoken) hmem)
  have hwritten := foldl_marshalToken hnul (by omega)
  have hcontents : (List.range (UInt16.ofNat (encodeFields (pieces value)).length).toNat).map
      (writeAt zeroed 0 (encodeFields (tokensOf value))) =
        encodeFields (tokensOf value ++ List.replicate (emptyPieces value) []) := by
    rw [toNat_ofNat_uint16 (by omega), hsplit, range_map_padded, encodeFields_append, encodeFields_replicate]
  unfold marshall
  rw [hentries, Option.bind_some, htokens, Option.map_some, hvalueLen, hwritten]
  dsimp only
  rw [hcontents]

/-- The value that is read from a line is a string, not longer than the line. -/
theorem value_of_readLine (hread : readLine line = some (some key, some value)) :
    ∃ str, IsString value str ∧ str.length ≤ maxMsgLen := by
  unfold readLine at hread
  split at hread
  · rename_i hlength
    obtain ⟨⟨first, t⟩, hfirst, hsecond⟩ := Option.bind_eq_some_iff.mp hread
    obtain ⟨⟨second, t'⟩, hcall, hresult⟩ := Option.map_eq_some_iff.mp hsecond
    obtain ⟨i, hi, rfl⟩ := Option.map_eq_some_iff.mp (Prod.mk.inj hresult).2
    subst hi
    obtain ⟨str, -, -, hstring⟩ := stringAt_of_strtok List.not_mem_nil hcall
    refine ⟨str, isString_of_stringAt hstring, ?_⟩
    have hmem := strtok_length hcall
    have hmem' := strtok_length hfirst
    have hle := hstring.lies.length_le
    rw [List.length_append, List.length_singleton] at hmem'
    rw [List.length_append, List.length_singleton, List.length_drop] at hle
    omega
  · cases hread

/-- The key of a line is its first piece that is not empty, and the value is all that stands behind the
semicolon after it. -/
theorem readLine_pieces {k : Nat} {p : Bytes} {rest : List Bytes} (hne : p ≠ []) (hp : semicolon ∉ p)
    (hline : line = [semicolon].intercalate (List.replicate k [] ++ p :: rest)) (hnul : 0 ∉ line)
    (hlength : line.length ≤ maxMsgLen) (hvalue : [semicolon].intercalate rest ≠ []) :
    ∃ key value, readLine line = some (some key, some value) ∧ IsString key p ∧
      IsString value ([semicolon].intercalate rest) := by
  have hstart : StringAt 0 (line ++ [0]) 0 ([semicolon].intercalate (List.replicate k [] ++ p :: rest)) :=
    hline ▸ stringAt_zero hnul []
  obtain ⟨i, t, hfirst, hkey, hsaved⟩ :=
    strtok_piece (t := ⟨line ++ [0], 0⟩) (by decide) hne hp hstart
  obtain ⟨t', hsecond, hmem⟩ := strtok_rest hvalue hsaved
  refine ⟨t'.mem.drop i, t'.mem.drop t.save, ?_, ?_, ?_⟩
  · rw [readLine, if_pos hlength, hfirst, Option.bind_some]
    exact Option.map_eq_some_iff.mpr ⟨_, hsecond, rfl⟩
  · rw [hmem]
    exact isString_of_stringAt hkey
  · rw [hmem]
    exact isString_of_stringAt hsaved

/-- A message as the receiver takes it apart. -/
theorem message_parts (a b : UInt8) (keyLen valueLen : UInt16) {keyBytes body : Bytes}
    (hkey : keyBytes.length = keyLen.toNat) (hbody : body.length = valueLen.toNat) :
    declaredLen ([a, b] ++ bytesOfUInt16 keyLen ++ bytesOfUInt16 valueLen ++ keyBytes ++ body) =
        valueLen.toNat ∧
      valueOf ([a, b] ++ bytesOfUInt16 keyLen ++ bytesOfUInt16 valueLen ++ keyBytes ++ body) = body := by
  have hkeyLen : uint16At ([a, b] ++ bytesOfUInt16 keyLen ++ bytesOfUInt16 valueLen ++ keyBytes ++ body) 2 =
      keyLen := uint16_of_bytes keyLen
  have hvalueLen : declaredLen ([a, b] ++ bytesOfUInt16 keyLen ++ bytesOfUInt16 valueLen ++ keyBytes ++ body) =
      valueLen.toNat := congrArg UInt16.toNat (uint16_of_bytes valueLen)
  have hfront : ([a, b] ++ bytesOfUInt16 keyLen ++ bytesOfUInt16 valueLen ++ keyBytes).length =
      headerLen + keyLen.toNat := by
    rw [List.length_append, hkey]
    rfl
  refine ⟨hvalueLen, ?_⟩
  rw [valueOf, hkeyLen, hvalueLen, ← hfront, List.drop_left, ← hbody, List.take_length]

/-- What a receiver finds: the declared length counts every piece, the tokens come first, and a field of
length zero stands behind them for each empty piece. -/
theorem marshall_spec (hvalue : IsString value str) (hlength : str.length ≤ maxMsgLen) {header : Bytes}
    (hheader : header.length = headerLen) (key : Bytes) :
    ∃ m, marshall header key value = some m ∧
      m.copied.toNat = (encodeFields (tokensOf value)).length ∧
      declaredLen m.message = (encodeFields (tokensOf value)).length + 2 * emptyPieces value ∧
      decodeValue m.message = some (tokensOf value ++ List.replicate (emptyPieces value) []) := by
  obtain ⟨a, b, rest, rfl⟩ : ∃ a b rest, header = a :: b :: rest := by
    match header, hheader with
    | a :: b :: rest, _ => exact ⟨a, b, rest, rfl⟩
  obtain ⟨hsplit, hshort⟩ := length_encodeFields_pieces hvalue hlength
  have hbody : (encodeFields (tokensOf value ++ List.replicate (emptyPieces value) [])).length =
      (encodeFields (pieces value)).length := by
    rw [encodeFields_append, List.length_append, encodeFields_replicate, List.length_replicate, hsplit]
  have hkey : (key.take (UInt16.ofNat (strlen key)).toNat).length = (UInt16.ofNat (strlen key)).toNat := by
    refine List.length_take_of_le ((Nat.mod_le _ _).trans ?_)
    exact (List.takeWhile_prefix _).length_le
  obtain ⟨hdeclared, hvalueOf⟩ := message_parts a b (UInt16.ofNat (strlen key))
    (UInt16.ofNat (encodeFields (pieces value)).length) hkey
    (hbody.trans (toNat_ofNat_uint16 hshort).symm)
  refine ⟨_, marshall_eq hvalue hlength _ key, toNat_ofNat_uint16 (by omega), ?_, ?_⟩
  · exact hdeclared.trans ((toNat_ofNat_uint16 hshort).trans hsplit)
  · have hdecoded := decodeFields_encodeFields (hbody ▸ hshort)
    rw [← hvalueOf] at hdecoded
    exact hdecoded

theorem emptyPieces_eq_zero_iff : emptyPieces value = 0 ↔ ∀ p ∈ pieces value, p ≠ [] := by
  rw [emptyPieces, List.length_eq_zero_iff, List.filter_eq_nil_iff]
  simp

theorem tokensOf_eq_pieces (h : ∀ p ∈ pieces value, p ≠ []) : tokensOf value = pieces value :=
  List.filter_eq_self.mpr fun p hp => decide_eq_true (h p hp)

end Messages

/-- **Declared and written.** For every line that is read as a key and a value, the length of the value in
the header is the number of bytes written, and the value is decoded into its pieces, exactly if none of the
pieces between the semicolons is empty. -/
theorem marshall_declares_iff (line header key value : Bytes) (hheader : header.length = headerLen)
    (hread : readLine line = some (some key, some value)) :
    ∃ m, marshall header key value = some m ∧
      ((declaredLen m.message = m.copied.toNat ∧ decodeValue m.message = some (pieces value)) ↔
        ∀ p ∈ pieces value, p ≠ []) := by
  obtain ⟨str, hvalue, hlength⟩ := value_of_readLine hread
  obtain ⟨m, hm, hcopied, hdeclared, hdecoded⟩ := marshall_spec hvalue hlength hheader key
  refine ⟨m, hm, ?_⟩
  constructor
  · rintro ⟨hlen, -⟩
    apply emptyPieces_eq_zero_iff.mp
    omega
  · intro hne
    have hnone := emptyPieces_eq_zero_iff.mpr hne
    refine ⟨by omega, ?_⟩
    calc decodeValue m.message = some (tokensOf value ++ List.replicate (emptyPieces value) []) := hdecoded
      _ = some (pieces value) := by rw [hnone, List.replicate_zero, List.append_nil, tokensOf_eq_pieces hne]

/-- The line `a;b;c`, with its newline. -/
theorem marshall_declares_iff_line :
    ∃ m, (set 0 [97, 0, 98, 59, 99, 10, 0] [98, 59, 99, 10, 0]).1 = some m ∧
      declaredLen m.message = m.copied.toNat ∧ decodeValue m.message = some [[98], [99, 10]] := by
  obtain ⟨m, hm, hiff⟩ := marshall_declares_iff [97, 59, 98, 59, 99, 10] [setMask, 0, 0, 0, 0, 0]
    [97, 0, 98, 59, 99, 10, 0] [98, 59, 99, 10, 0] rfl rfl
  exact ⟨m, hm, hiff.mpr (by decide)⟩

/-- The line `a;b;;c` has an empty piece in its value. The header declares nine bytes, of which the loop
writes seven, and the empty field is read back behind the others. -/
theorem empty_piece_moves :
    readLine [97, 59, 98, 59, 59, 99, 10] =
        some (some [97, 0, 98, 59, 59, 99, 10, 0], some [98, 59, 59, 99, 10, 0]) ∧
      (∃ m, (set 0 [97, 0, 98, 59, 59, 99, 10, 0] [98, 59, 59, 99, 10, 0]).1 = some m ∧
        declaredLen m.message = 9 ∧ m.copied = 7 ∧ decodeValue m.message = some [[98], [99, 10], []]) ∧
      pieces [98, 59, 59, 99, 10, 0] = [[98], [], [99, 10]] ∧
      ¬∀ line header key value : Bytes, header.length = headerLen →
        readLine line = some (some key, some value) →
        ∃ m, marshall header key value = some m ∧ declaredLen m.message = m.copied.toNat ∧
          decodeValue m.message = some (pieces value) := by
  have hpieces : pieces [98, 59, 59, 99, 10, 0] = [[98], [], [99, 10]] := by decide
  have hread : readLine [97, 59, 98, 59, 59, 99, 10] =
      some (some [97, 0, 98, 59, 59, 99, 10, 0], some [98, 59, 59, 99, 10, 0]) := by decide
  obtain ⟨m, hm, hlen, hcopied, hdecode⟩ :
      ∃ m, marshall [setMask, 0, 0, 0, 0, 0] [97, 0, 98, 59, 59, 99, 10, 0] [98, 59, 59, 99, 10, 0] = some m ∧
        declaredLen m.message = 9 ∧ m.copied = 7 ∧ decodeValue m.message = some [[98], [99, 10], []] :=
    ⟨_, rfl, by decide, by decide, by decide⟩
  refine ⟨hread, ⟨m, hm, hlen, hcopied, hdecode⟩, hpieces, fun hall => ?_⟩
  obtain ⟨m', hm', hsame, -⟩ := hall _ [setMask, 0, 0, 0, 0, 0] _ _ rfl hread
  obtain rfl : m' = m := Option.some.inj (hm'.symm.trans hm)
  rw [hlen, hcopied] at hsame
  revert hsame
  decide

end ComputerNetworking.MalteClient
