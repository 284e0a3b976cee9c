import ComputerNetworking.HttpHeader
import Mathlib.Data.Nat.Digits.Defs

/-! The HTTP client (`TCP_IP_and_Drgramms/ex7.c`) behind the header: the body in chunks.

All of the body has arrived when the client asks for it. A chunk is its size in hexadecimal digits, the end
of the line, its bytes and again the end of a line; a chunk of no bytes is the last one. -/

namespace ComputerNetworking.Http

open Dht PatternScan
open FilmClient (writeAt)

/-! ### The size of a chunk -/

/-- The size of `length` and of `convert`. -/
def lengthLen : Nat := 10

/-- The number that a character stands for; `char` is signed. -/
def convert (c : UInt8) : Int :=
  let value := c.toInt8.toInt
  if value ≤ 57 then value - 48 else value - 87

/-- `<<` of the type `int`. It is undefined for a negative number, for a distance that is not less than the
width, and if the result does not fit. -/
def shiftLeft (a : Int) (distance : Nat) : Option Int :=
  if 0 ≤ a ∧ distance < 32 ∧ a * 2 ^ distance < 2 ^ 31 then some (a * 2 ^ distance) else none

/-- `+` of the type `int`. -/
def add (a b : Int) : Option Int :=
  if -2 ^ 31 ≤ a + b ∧ a + b < 2 ^ 31 then some (a + b) else none

/-- The loop that adds up the digits. -/
def sumDigits : Bytes → Int → Option Int
  | [], result => some result
  | c :: digits, result =>
      match shiftLeft (convert c) (digits.length * 4) with
      | none => none
      | some shifted =>
          match add result shifted with
          | none => none
          | some result => sumDigits digits result

/-- The size of a chunk and the stream behind it. In every round the client looks at one byte more, until
it sees a carriage return. -/
def getChunkLen (stream : Bytes) : Option (Int × Bytes) :=
  match scan lengthLen (fun i => stream.getD i 0) [13] (lengthLen + 1) 0 with
  | none => none
  | some received =>
      match sumDigits (stream.take received) 0 with
      | none => none
      | some result =>
          -- the line is received into `length`
          if (stream.take (received + 2)).length ≤ lengthLen then some (result, stream.drop (received + 2))
          else none

/-! ### The loop over the chunks -/

/-- Where the loop over the chunks is. -/
inductive ChunkLoop where
  | running (stream : Bytes) (buffer : Nat → UInt8) (peaked : Nat)
  | stopped (stream : Bytes) (buffer : Nat → UInt8) (peaked : Nat)
  | undefined

/-- One turn of the loop. -/
def chunkTurn (stream : Bytes) (buffer : Nat → UInt8) (peaked : Nat) : ChunkLoop :=
  match getChunkLen stream with
  | none => .undefined
  | some (chunkLen, stream) =>
      if chunkLen = 0 then
        if peaked < bufferLen then .stopped stream (writeAt buffer peaked [0]) peaked else .undefined
      else
        let data := stream.take chunkLen.toNat
        if peaked + data.length ≤ bufferLen ∧ peaked + chunkLen < 2 ^ 31 then
          .running (stream.drop chunkLen.toNat) (writeAt buffer peaked data) (peaked + chunkLen.toNat)
        else .undefined

/-- The loop after a number of turns. -/
def chunkLoop (stream : Bytes) (buffer : Nat → UInt8) : Nat → ChunkLoop
  | 0 => .running stream buffer 0
  | k + 1 =>
      match chunkLoop stream buffer k with
      | .running stream buffer peaked => chunkTurn stream buffer peaked
      | .stopped stream buffer peaked => .stopped stream buffer peaked
      | .undefined => .undefined

/-- The loop stops with exactly these bytes in the buffer, which are ended by a zero. -/
def Leaves (stream : Bytes) (buffer : Nat → UInt8) (content : Bytes) : Prop :=
  ∃ k rest buffer', chunkLoop stream buffer k = .stopped rest buffer' content.length ∧
    ∀ i, i ≤ content.length → buffer' i = content.getD i 0

/-- The loop stops when it has read the stream up to here. -/
def StopsAt (stream : Bytes) (buffer : Nat → UInt8) (rest : Bytes) : Prop :=
  ∃ k buffer' peaked, chunkLoop stream buffer k = .stopped rest buffer' peaked

/-! ### Chunks -/

/-- A hexadecimal digit in either case. -/
def hexDigit (c : UInt8) : Option Nat :=
  if 48 ≤ c ∧ c ≤ 57 then some (c.toNat - 48)
  else if 65 ≤ c ∧ c ≤ 70 then some (c.toNat - 55)
  else if 97 ≤ c ∧ c ≤ 102 then some (c.toNat - 87)
  else none

def IsCapital (c : UInt8) : Prop := 65 ≤ c ∧ c ≤ 70

instance (c : UInt8) : Decidable (IsCapital c) := inferInstanceAs (Decidable (_ ∧ _))

/-- The number that hexadecimal digits stand for. -/
def hexValue (digits : Bytes) : Nat :=
  Nat.ofDigits 16 (digits.reverse.map fun c => (hexDigit c).getD 0)

/-- A chunk that is not the last one. Its size has a line that fits into `length`. -/
structure Chunk where
  digits : Bytes
  data : Bytes
  hexDigits : ∀ c ∈ digits, (hexDigit c).isSome
  fits : (digits ++ crlf).length ≤ lengthLen
  size : hexValue digits = data.length
  nonempty : data ≠ []

def Chunk.encode (chunk : Chunk) : Bytes := chunk.digits ++ crlf ++ chunk.data ++ crlf

/-- The last chunk. -/
def lastChunk : Bytes := [48] ++ crlf

/-- A body in chunks and what follows its last chunk. -/
def encodeBody (chunks : List Chunk) (trailer : Bytes) : Bytes :=
  chunks.flatMap Chunk.encode ++ lastChunk ++ trailer

/-! ### Reading a size -/

theorem hexValue_cons (c : UInt8) (digits : Bytes) :
    hexValue (c :: digits) = (hexDigit c).getD 0 * 16 ^ digits.length + hexValue digits := by
  calc hexValue (c :: digits)
      = Nat.ofDigits 16 ((digits.reverse.map fun c => (hexDigit c).getD 0) ++ [(hexDigit c).getD 0]) := by
        rw [hexValue, List.reverse_cons, List.map_append, List.map_singleton]
    _ = hexValue digits + 16 ^ digits.length * (hexDigit c).getD 0 := by
        rw [Nat.ofDigits_append, List.length_map, List.length_reverse, Nat.ofDigits_singleton, hexValue]
    _ = (hexDigit c).getD 0 * 16 ^ digits.length + hexValue digits := by ring

/-- The conversion knows the digits in lower case. -/
theorem convert_of_not_capital {c : UInt8} (hdigit : (hexDigit c).isSome) (hlower : ¬IsCapital c) :
    convert c = ((hexDigit c).getD 0 : Nat) ∧ (hexDigit c).getD 0 < 16 := by
  have hall : ∀ n : Fin 256, (hexDigit (UInt8.ofFin n)).isSome → ¬IsCapital (UInt8.ofFin n) →
      convert (UInt8.ofFin n) = ((hexDigit (UInt8.ofFin n)).getD 0 : Nat) ∧
        (hexDigit (UInt8.ofFin n)).getD 0 < 16 := by decide +kernel
  exact hall c.toFin hdigit hlower

theorem convert_of_capital {c : UInt8} (h : IsCapital c) : convert c < 0 := by
  have hall : ∀ n : Fin 256, IsCapital (UInt8.ofFin n) → convert (UInt8.ofFin n) < 0 := by decide +kernel
  exact hall c.toFin h

theorem hexDigit_cr : hexDigit 13 = none := by decide

theorem sumDigits_eq {digits : Bytes} {result : Int} (hresult : 0 ≤ result)
    (hdigits : ∀ c ∈ digits, (hexDigit c).isSome) (hlower : ∀ c ∈ digits, ¬IsCapital c)
    (hlength : digits.length ≤ 8) (hfits : result + hexValue digits < 2 ^ 31) :
    sumDigits digits result = some (result + hexValue digits) := by
  induction digits generalizing result with
  | nil => simp [sumDigits, hexValue]
  | cons c digits ih =>
      rw [List.length_cons] at hlength
      obtain ⟨hconvert, hlt⟩ := convert_of_not_capital (hdigits c List.mem_cons_self) (hlower c List.mem_cons_self)
      have hpow : (2 : Int) ^ (digits.length * 4) = ((16 ^ digits.length : Nat) : Int) := by
        rw [mul_comm, pow_mul]
        norm_num
      have hvalue : (hexValue (c :: digits) : Int) =
          convert c * 2 ^ (digits.length * 4) + (hexValue digits : Int) := by
        rw [hexValue_cons, hconvert, hpow]
        push_cast
        ring
      have hterm : 0 ≤ convert c * 2 ^ (digits.length * 4) := by
        rw [hconvert]
        positivity
      have hrest : (0 : Int) ≤ hexValue digits := Int.natCast_nonneg _
      have hshift : shiftLeft (convert c) (digits.length * 4) =
          some (convert c * 2 ^ (digits.length * 4)) := by
        refine if_pos ⟨?_, by omega, by omega⟩
        rw [hconvert]
        exact Int.natCast_nonneg _
      have hadd : add result (convert c * 2 ^ (digits.length * 4)) =
          some (result + convert c * 2 ^ (digits.length * 4)) := if_pos ⟨by omega, by omega⟩
      rw [sumDigits, hshift]
      dsimp only
      rw [hadd]
      dsimp only
      rw [ih (by omega) (fun c hc => hdigits c (List.mem_cons_of_mem _ hc))
        (fun c hc => hlower c (List.mem_cons_of_mem _ hc)) (by omega) (by omega), hvalue, add_assoc]

/-- A digit in upper case becomes a negative number, which cannot be shifted. -/
theorem sumDigits_capital {digits : Bytes} {result : Int} (h : ∃ c ∈ digits, IsCapital c) :
    sumDigits digits result = none := by
  induction digits generalizing result with
  | nil => simp at h
  | cons c digits ih =>
      rw [sumDigits]
      by_cases hc : IsCapital c
      · have hneg := convert_of_capital hc
        rw [shiftLeft, if_neg fun hall => not_le.mpr hneg hall.1]
      · have hrest : ∃ d ∈ digits, IsCapital d := by
          obtain ⟨d, hd, hcapital⟩ := h
          rcases List.mem_cons.mp hd with heq | hmem
          · exact absurd (heq ▸ hcapital) hc
          · exact ⟨d, hmem, hcapital⟩
        split
        · rfl
        · split
          · rfl
          · exact ih hrest

section Line

variable {digits rest : Bytes}

/-- The carriage return that ends the digits is the first. -/
theorem scan_line (hdigits : ∀ c ∈ digits, (hexDigit c).isSome) (hlength : digits.length < lengthLen) :
    scan lengthLen (fun i => (digits ++ crlf ++ rest).getD i 0) [13] (lengthLen + 1) 0 =
      some digits.length := by
  have hmatch : ∀ i, i < lengthLen →
      matchAt lengthLen (fun i => (digits ++ crlf ++ rest).getD i 0) [13] i =
        some (decide (OccursAt [13] (digits ++ crlf ++ rest) i)) :=
    fun i hi => matchAt_eq (fun _ => rfl) (by decide) hi
  have hoccurs : ∀ i, OccursAt [13] (digits ++ crlf ++ rest) i ↔ (digits ++ crlf ++ rest)[i]? = some 13 :=
    fun i => occursAt_cons.trans (and_iff_left List.nil_prefix)
  refine scan_found (Nat.zero_le _) (by omega) (fun j _ hj => ?_) ?_
  · rw [hmatch j (by omega)]
    refine congrArg some (decide_eq_false fun hcr => ?_)
    rw [hoccurs, List.append_assoc, List.getElem?_append_left hj, List.getElem?_eq_getElem hj,
      Option.some_inj] at hcr
    have hsome := hdigits digits[j] (List.getElem_mem hj)
    rw [hcr, hexDigit_cr] at hsome
    cases hsome
  · rw [hmatch _ hlength]
    refine congrArg some (decide_eq_true ?_)
    rw [hoccurs, List.append_assoc, List.getElem?_append_right le_rfl, Nat.sub_self]
    rfl

/-- The digits of a line are added up, and the line is received. -/
theorem getChunkLen_eq (hdigits : ∀ c ∈ digits, (hexDigit c).isSome)
    (hlength : (digits ++ crlf).length ≤ lengthLen) :
    getChunkLen (digits ++ crlf ++ rest) = (sumDigits digits 0).map fun result => (result, rest) := by
  have hline : (digits ++ crlf).length = digits.length + 2 := List.length_append
  have hshort : digits.length < lengthLen := by
    rw [hline] at hlength
    omega
  have htake : (digits ++ crlf ++ rest).take digits.length = digits := by
    rw [List.append_assoc]
    exact List.take_left
  rw [getChunkLen, scan_line hdigits hshort]
  dsimp only
  rw [htake, ← hline, List.take_left, List.drop_left]
  cases sumDigits digits 0 with
  | none => rfl
  | some result => exact if_pos hlength

/-- A size without a capital digit is read, and its line with it. -/
theorem getChunkLen_line (hdigits : ∀ c ∈ digits, (hexDigit c).isSome) (hlower : ∀ c ∈ digits, ¬IsCapital c)
    (hlength : (digits ++ crlf).length ≤ lengthLen) (hfits : hexValue digits < 2 ^ 31) :
    getChunkLen (digits ++ crlf ++ rest) = some ((hexValue digits : Int), rest) := by
  have hline : (digits ++ crlf).length = digits.length + 2 := List.length_append
  have hlen : digits.length ≤ 8 := Nat.le_of_add_le_add_right (hline ▸ hlength)
  rw [getChunkLen_eq hdigits hlength, sumDigits_eq le_rfl hdigits hlower hlen (by omega), zero_add]
  rfl

theorem getChunkLen_capital (hdigits : ∀ c ∈ digits, (hexDigit c).isSome)
    (hlength : (digits ++ crlf).length ≤ lengthLen) (hcapital : ∃ c ∈ digits, IsCapital c) :
    getChunkLen (digits ++ crlf ++ rest) = none := by
  rw [getChunkLen_eq hdigits hlength, sumDigits_capital hcapital]
  rfl

end Line

/-! ### What the loop does to the chunks -/

section Loop

variable {stream rest trailer : Bytes} {buffer : Nat → UInt8} {peaked k : Nat}

theorem chunkLoop_stopped {buffer' : Nat → UInt8}
    (h : chunkLoop stream buffer k = .stopped rest buffer' peaked) (j : Nat) :
    chunkLoop stream buffer (k + j) = .stopped rest buffer' peaked := by
  apply Transition.stays (fun i hi => ?_) h
  rw [chunkLoop, hi]

theorem chunkLoop_undefined (h : chunkLoop stream buffer k = .undefined) (j : Nat) :
    chunkLoop stream buffer (k + j) = .undefined := by
  apply Transition.stays (fun i hi => ?_) h
  rw [chunkLoop, hi]

/-- The loop stops in one way only. -/
theorem stopped_eq {j peaked' : Nat} {rest' : Bytes} {buffer' buffer'' : Nat → UInt8}
    (h : chunkLoop stream buffer k = .stopped rest buffer' peaked)
    (h' : chunkLoop stream buffer j = .stopped rest' buffer'' peaked') :
    rest = rest' ∧ buffer' = buffer'' ∧ peaked = peaked' := by
  have hsame := (chunkLoop_stopped h j).symm.trans (Nat.add_comm j k ▸ chunkLoop_stopped h' k)
  exact ChunkLoop.stopped.inj hsame

theorem not_stopped_of_undefined {j peaked' : Nat} {rest' : Bytes} {buffer' : Nat → UInt8}
    (h : chunkLoop stream buffer k = .undefined) :
    chunkLoop stream buffer j ≠ .stopped rest' buffer' peaked' := by
  intro hstopped
  have hsame := (chunkLoop_undefined h j).symm.trans (Nat.add_comm j k ▸ chunkLoop_stopped hstopped k)
  cases hsame

/-- A line that stands for zero stops the loop. -/
theorem chunkTurn_zero (h : getChunkLen stream = some (0, rest)) (hfits : peaked < bufferLen) :
    chunkTurn stream buffer peaked = .stopped rest (writeAt buffer peaked [0]) peaked := by
  rw [chunkTurn, h]
  dsimp only
  rw [if_pos rfl, if_pos hfits]

variable (chunk : Chunk)

theorem Chunk.length_pos : 0 < chunk.data.length := List.length_pos_iff.mpr chunk.nonempty

/-- The first chunk is put at the front of the buffer, and the end of the line behind it stays in the
stream. -/
theorem chunkTurn_chunk (hlower : ∀ c ∈ chunk.digits, ¬IsCapital c)
    (hfits : peaked + chunk.data.length ≤ bufferLen) :
    chunkTurn (chunk.encode ++ rest) buffer peaked =
      .running (crlf ++ rest) (writeAt buffer peaked chunk.data) (peaked + chunk.data.length) := by
  have hshape : chunk.encode ++ rest = chunk.digits ++ crlf ++ (chunk.data ++ (crlf ++ rest)) := by
    simp only [Chunk.encode, List.append_assoc]
  have hmax : bufferLen < 2 ^ 31 := by decide
  have hsize : getChunkLen (chunk.encode ++ rest) =
      some ((chunk.data.length : Int), chunk.data ++ (crlf ++ rest)) := by
    rw [hshape, getChunkLen_line chunk.hexDigits hlower chunk.fits (by rw [chunk.size]; omega), chunk.size]
  have hpos := chunk.length_pos
  rw [chunkTurn, hsize]
  dsimp only
  rw [if_neg (by omega), Int.toNat_natCast, List.take_left, List.drop_left, if_pos ⟨hfits, by omega⟩]

/-- The line that is left behind the first chunk has no digit, so it is taken for the last chunk. -/
theorem chunkLoop_chunk (hlower : ∀ c ∈ chunk.digits, ¬IsCapital c) (hfits : chunk.data.length < bufferLen) :
    chunkLoop (chunk.encode ++ rest) buffer 2 =
      .stopped rest (writeAt (writeAt buffer 0 chunk.data) chunk.data.length [0]) chunk.data.length := by
  have hfirst : chunkLoop (chunk.encode ++ rest) buffer 1 =
      .running (crlf ++ rest) (writeAt buffer 0 chunk.data) chunk.data.length := by
    refine (chunkTurn_chunk chunk hlower (by omega)).trans ?_
    rw [Nat.zero_add]
  have hline : getChunkLen (crlf ++ rest) = some (0, rest) :=
    @getChunkLen_line [] rest (fun c hc => nomatch hc) (fun c hc => nomatch hc) (by decide) (by decide)
  rw [chunkLoop, hfirst]
  exact chunkTurn_zero hline hfits

theorem chunkLoop_capital (hcapital : ∃ c ∈ chunk.digits, IsCapital c) :
    chunkLoop (chunk.encode ++ rest) buffer 1 = .undefined := by
  have hshape : chunk.encode ++ rest = chunk.digits ++ crlf ++ (chunk.data ++ (crlf ++ rest)) := by
    simp only [Chunk.encode, List.append_assoc]
  show chunkTurn (chunk.encode ++ rest) buffer 0 = .undefined
  rw [chunkTurn, hshape, getChunkLen_capital chunk.hexDigits chunk.fits hcapital]

theorem chunkLoop_last : chunkLoop (lastChunk ++ trailer) buffer 1 =
    .stopped trailer (writeAt buffer 0 [0]) 0 := by
  have hline : getChunkLen (lastChunk ++ trailer) = some (0, trailer) :=
    @getChunkLen_line [48] trailer (List.forall_mem_singleton.mpr (by decide))
      (List.forall_mem_singleton.mpr (by decide)) (by decide) (by decide)
  show chunkTurn (lastChunk ++ trailer) buffer 0 = _
  exact chunkTurn_zero hline (by decide)

/-- What a write and the zero behind it leave. -/
theorem writeAt_string {data : Bytes} {i : Nat} (hi : i ≤ data.length) :
    writeAt (writeAt buffer 0 data) data.length [0] i = data.getD i 0 := by
  unfold writeAt
  rw [List.length_singleton, Nat.zero_add, Nat.sub_zero]
  rcases Nat.lt_or_ge i data.length with hlt | hge
  · rw [if_neg fun h => absurd h.1 (not_le.mpr hlt), if_pos ⟨Nat.zero_le i, hlt⟩]
  · have heq : i = data.length := le_antisymm hi hge
    rw [if_pos ⟨hge, by omega⟩, heq, Nat.sub_self, List.getD_eq_default _ _ le_rfl]
    rfl

theorem encodeBody_cons (chunks : List Chunk) :
    encodeBody (chunk :: chunks) trailer = chunk.encode ++ encodeBody chunks trailer := by
  simp only [encodeBody, List.flatMap_cons, List.append_assoc]

/-- With no chunk but the last one everything is right. -/
theorem leaves_nil : Leaves (encodeBody [] trailer) buffer [] ∧ StopsAt (encodeBody [] trailer) buffer trailer := by
  have hloop : chunkLoop (encodeBody [] trailer) buffer 1 = .stopped trailer (writeAt buffer 0 [0]) 0 :=
    chunkLoop_last
  refine ⟨⟨1, trailer, _, hloop, fun i hi => ?_⟩, 1, _, 0, hloop⟩
  have hzero : i = 0 := Nat.le_zero.mp hi
  rw [hzero]
  rfl

/-- A body with a chunk leaves the first chunk, if the digits of its size are in lower case. -/
theorem leaves_cons_iff {chunks : List Chunk} {content : Bytes} (hfits : chunk.data.length < bufferLen) :
    Leaves (encodeBody (chunk :: chunks) trailer) buffer content ↔
      (∀ c ∈ chunk.digits, ¬IsCapital c) ∧ content = chunk.data := by
  rw [encodeBody_cons]
  constructor
  · rintro ⟨k, rest, buffer', hstopped, hcontent⟩
    have hlower : ∀ c ∈ chunk.digits, ¬IsCapital c := by
      intro c hc hcapital
      exact not_stopped_of_undefined (chunkLoop_capital chunk ⟨c, hc, hcapital⟩) hstopped
    obtain ⟨-, hbuffer, hlength⟩ := stopped_eq (chunkLoop_chunk chunk hlower hfits) hstopped
    refine ⟨hlower, List.ext_getElem hlength.symm fun i hi hi' => ?_⟩
    have hleft := hcontent i hi.le
    rw [← hbuffer, writeAt_string hi'.le, List.getD_eq_getElem _ _ hi, List.getD_eq_getElem _ _ hi'] at hleft
    exact hleft.symm
  · rintro ⟨hlower, hcontent⟩
    rw [hcontent]
    exact ⟨2, _, _, chunkLoop_chunk chunk hlower hfits, fun i hi => writeAt_string hi⟩

/-- The loop stops before the rest of the body. -/
theorem stopsAt_cons {chunks : List Chunk} {stop : Bytes} (hlower : ∀ c ∈ chunk.digits, ¬IsCapital c)
    (hfits : chunk.data.length < bufferLen) (h : StopsAt (encodeBody (chunk :: chunks) trailer) buffer stop) :
    stop = encodeBody chunks trailer := by
  rw [encodeBody_cons] at h
  obtain ⟨k, buffer', peaked, hstopped⟩ := h
  exact (stopped_eq (chunkLoop_chunk chunk hlower hfits) hstopped).1.symm

end Loop

/-- The buffer is left with all of the body exactly if there is at most one chunk before the last one, with
a size in lower case. The loop stops at the last chunk, too, exactly if there is none before it. -/
theorem chunks_reassembled_iff (chunks : List Chunk) (trailer : Bytes) (buffer : Nat → UInt8)
    (hmax : (chunks.flatMap Chunk.data).length < maxMsgLen) :
    (Leaves (encodeBody chunks trailer) buffer (chunks.flatMap Chunk.data) ↔
        chunks = [] ∨ ∃ chunk, chunks = [chunk] ∧ ∀ c ∈ chunk.digits, ¬IsCapital c) ∧
      (Leaves (encodeBody chunks trailer) buffer (chunks.flatMap Chunk.data) ∧
        StopsAt (encodeBody chunks trailer) buffer trailer ↔ chunks = []) := by
  cases chunks with
  | nil => exact ⟨iff_of_true leaves_nil.1 (.inl rfl), iff_of_true leaves_nil rfl⟩
  | cons chunk chunks =>
      rw [List.flatMap_cons, List.length_append] at hmax
      have hfits : chunk.data.length < bufferLen := by
        have hlt : maxMsgLen < bufferLen := Nat.lt_succ_self _
        omega
      have hrest : chunk.data ++ chunks.flatMap Chunk.data = chunk.data ↔ chunks = [] := by
        rw [List.append_right_eq_self, List.flatMap_eq_nil_iff]
        refine ⟨fun hall => List.eq_nil_iff_forall_not_mem.mpr fun c hc => c.nonempty (hall c hc), ?_⟩
        intro hnil
        rw [hnil]
        exact fun c hc => absurd hc List.not_mem_nil
      rw [List.flatMap_cons, leaves_cons_iff chunk hfits, hrest]
      constructor
      · constructor
        · rintro ⟨hlower, rfl⟩
          exact .inr ⟨chunk, rfl, hlower⟩
        · rintro (hnil | ⟨c, heq, hlower⟩)
          · cases hnil
          · obtain ⟨hhead, htail⟩ := List.cons.inj heq
            rw [hhead]
            exact ⟨hlower, htail⟩
      · -- what is left of the stream is longer than what follows the last chunk
        refine iff_of_false ?_ (List.cons_ne_nil _ _)
        rintro ⟨⟨hlower, -⟩, hstops⟩
        have hstop := congrArg List.length (stopsAt_cons chunk hlower hfits hstops)
        rw [encodeBody, List.length_append, List.length_append] at hstop
        have hlast : lastChunk.length = 3 := rfl
        omega

/-- A chunk of one byte. -/
def oneByteChunk : Chunk :=
  ⟨[49], [97], List.forall_mem_singleton.mpr (by decide), by decide, by decide, by decide⟩

/-- The letters as one chunk, whose size `1a` is written with a letter itself. -/
def alphabetChunk : Chunk :=
  ⟨[49, 97], (List.range 26).map fun i => UInt8.ofNat (97 + i),
    List.forall_mem_cons.mpr ⟨by decide, List.forall_mem_singleton.mpr (by decide)⟩, by decide, by decide, by decide⟩

theorem chunks_reassembled_iff_alphabet :
    ([alphabetChunk].flatMap Chunk.data).length < maxMsgLen ∧
      (Leaves (encodeBody [alphabetChunk] crlf) zeroed ([alphabetChunk].flatMap Chunk.data) ↔
        [alphabetChunk] = [] ∨
          ∃ chunk : Chunk, [alphabetChunk] = [chunk] ∧ ∀ c ∈ chunk.digits, ¬IsCapital c) ∧
      (Leaves (encodeBody [alphabetChunk] crlf) zeroed ([alphabetChunk].flatMap Chunk.data) ∧
        StopsAt (encodeBody [alphabetChunk] crlf) zeroed crlf ↔ [alphabetChunk] = []) :=
  ⟨by decide, chunks_reassembled_iff [alphabetChunk] crlf zeroed (by decide)⟩

/-- Of two chunks of one byte only the first is left. -/
theorem second_chunk_is_lost :
    ¬∀ (chunks : List Chunk) (trailer : Bytes) (buffer : Nat → UInt8),
      (chunks.flatMap Chunk.data).length < maxMsgLen →
        Leaves (encodeBody chunks trailer) buffer (chunks.flatMap Chunk.data) ∧
          StopsAt (encodeBody chunks trailer) buffer trailer := by
  intro hall
  have hleaves := (hall [oneByteChunk, oneByteChunk] crlf zeroed (by decide)).1
  have hcontent := ((leaves_cons_iff oneByteChunk (by decide)).mp hleaves).2
  exact absurd hcontent (by decide)

end ComputerNetworking.Http
