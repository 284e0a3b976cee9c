import ComputerNetworking.HashTableModel
import Mathlib.Data.List.Basic

/-! The strings of the JSON library of the film server (`cJSON.c`): how they are escaped and read back.

A pointer into a text is what is left of the text; at its end, and where a byte is 0, the text has its `NUL`.
A length is an `int`, and so is a size that is allocated; the loop that counts is that for a text of fewer than `2^31`
characters, in which the `int` is exact. `malloc` does not fail. The error pointer `ep` is left out, as nothing reads
it. -/

namespace ComputerNetworking.CJson

open Dht

/-- A string of C: none of its bytes is the `NUL` that ends it. -/
structure CString where
  bytes : Bytes
  nul : (0 : UInt8) ∉ bytes
  deriving DecidableEq

/-- `"` -/
abbrev quote : UInt8 := 34

/-- `\` -/
abbrev backslash : UInt8 := 92

/-- `u` -/
abbrev letterU : UInt8 := 117

/-- The `int` in which a length is kept, in two's complement. -/
def intOf (len : Nat) : Int := (len : Int).bmod (2 ^ 32)

theorem intOf_eq {len : Nat} (h : len < 2 ^ 31) : intOf len = len := Int.bmod_eq_of_le (by omega) (by omega)

/-! ### Reading -/

/-- `skip`: white space, and all other control characters. -/
def skip (text : Bytes) : Bytes := text.dropWhile fun c => c ≠ 0 ∧ c ≤ 32

def hexDigit (c : UInt8) : Option Nat :=
  if 48 ≤ c ∧ c ≤ 57 then some (c.toNat - 48)
  else if 65 ≤ c ∧ c ≤ 70 then some (10 + c.toNat - 65)
  else if 97 ≤ c ∧ c ≤ 102 then some (10 + c.toNat - 97)
  else none

/-- `parse_hex4`, which is 0 for what is not a number. -/
def parseHex4 (a b c d : UInt8) : Nat :=
  match hexDigit a, hexDigit b, hexDigit c, hexDigit d with
  | some a, some b, some c, some d => ((a * 16 + b) * 16 + c) * 16 + d
  | _, _, _, _ => 0

/-- A byte of an encoding after its first one. -/
def continuation (uc : Nat) : UInt8 := UInt8.ofNat ((uc ||| 0x80) &&& 0xBF)

/-- The encoding of a code point as UTF-8. -/
def encodeUtf8 (uc : Nat) : Bytes :=
  if uc < 0x80 then [UInt8.ofNat (uc ||| 0x00)]
  else if uc < 0x800 then [UInt8.ofNat (uc >>> 6 ||| 0xC0), continuation uc]
  else if uc < 0x10000 then [UInt8.ofNat (uc >>> 12 ||| 0xE0), continuation (uc >>> 6), continuation uc]
  else [UInt8.ofNat (uc >>> 18 ||| 0xF0), continuation (uc >>> 12), continuation (uc >>> 6), continuation uc]

/-- The first loop of `parse_string`: how often it adds to `len`, the literal, and the text from its end on. -/
def scan : Bytes → Option (Nat × Bytes × Bytes)
  | [] => some (0, [], [])
  | c :: rest =>
      if c = quote ∨ c = 0 then some (0, [], c :: rest)
      else if c = backslash then
        match rest with
        | [] => none
        | d :: rest =>
            if d = 0 then none else (scan rest).map fun (len, literal, rest) => (len + 1, c :: d :: literal, rest)
      else (scan rest).map fun (len, literal, rest) => (len + 1, c :: literal, rest)

/-- The room that `parse_string` allocates. -/
def parseStringRoom (len : Nat) : Int := intOf (len + 1)

/-- The escape sequences of one letter. -/
def unescape (c : UInt8) : Option UInt8 :=
  if c = 98 then some 8
  else if c = 102 then some 12
  else if c = 110 then some 10
  else if c = 114 then some 13
  else if c = 116 then some 9
  else if c = quote ∨ c = backslash ∨ c = 47 then some c
  else none

/-- The second loop of `parse_string`, on the literal: what it writes, and whether it gets to the end. It gives up at
an escape sequence that is not valid. A number that goes beyond the literal is 0, as the character at its end is no
digit. -/
def writeString : Bytes → Bytes × Bool
  | [] => ([], true)
  | c :: rest =>
      if c ≠ backslash then (writeString rest).map (c :: ·) id
      else
        match rest with
        | [] => ([], false)
        | d :: rest =>
            match unescape d with
            | some e => (writeString rest).map (e :: ·) id
            | none =>
                if d ≠ letterU then ([], false)
                else
                  match rest with
                  | h₁ :: h₂ :: h₃ :: h₄ :: rest =>
                      let uc := parseHex4 h₁ h₂ h₃ h₄
                      if 0xDC00 ≤ uc ∧ uc ≤ 0xDFFF ∨ uc = 0 then ([], false)
                      else if 0xD800 ≤ uc ∧ uc ≤ 0xDBFF then
                        -- a surrogate pair
                        match rest with
                        | b :: u :: l₁ :: l₂ :: l₃ :: l₄ :: rest =>
                            let uc₂ := parseHex4 l₁ l₂ l₃ l₄
                            if b ≠ backslash ∨ u ≠ letterU then ([], false)
                            else if uc₂ < 0xDC00 ∨ uc₂ > 0xDFFF then ([], false)
                            else
                              (writeString rest).map
                                (encodeUtf8 (0x10000 + ((uc &&& 0x3FF) <<< 10 ||| uc₂ &&& 0x3FF)) ++ ·) id
                        | _ => ([], false)
                      else (writeString rest).map (encodeUtf8 uc ++ ·) id
                  | _ => ([], false)

/-- The string that is written for a literal, if the loop gets to its end. -/
def decode (literal : Bytes) : Option Bytes :=
  if (writeString literal).2 then some (writeString literal).1 else none

/-! ### Writing -/

/-- A digit of `%x`. -/
def hexChar (n : Nat) : UInt8 := if n < 10 then UInt8.ofNat (48 + n) else UInt8.ofNat (87 + n)

def escape (c : UInt8) : Bytes :=
  if 31 < c ∧ c ≠ quote ∧ c ≠ backslash then [c]
  else if c = backslash then [backslash, backslash]
  else if c = quote then [backslash, quote]
  else if c = 8 then [backslash, 98]
  else if c = 12 then [backslash, 102]
  else if c = 10 then [backslash, 110]
  else if c = 13 then [backslash, 114]
  else if c = 9 then [backslash, 116]
  else [backslash, letterU, 48, 48, hexChar (c.toNat / 16), hexChar (c.toNat % 16)]

/-- The characters for which `flag` is set. -/
def flagged (c : UInt8) : Bool := (0 < c ∧ c < 32) ∨ c = quote ∨ c = backslash

/-- `print_string_ptr`. -/
def printStringPtr (str : CString) : Bytes :=
  if str.bytes.any flagged then quote :: (str.bytes.flatMap escape ++ [quote])
  else quote :: (str.bytes ++ [quote])

/-- The length of a text with its escape sequences, as `print_string_ptr` counts it. -/
def escapedLength (str : CString) : Nat :=
  if str.bytes.any flagged then
    (str.bytes.map fun c => if c ∈ [quote, backslash, 8, 12, 10, 13, 9] then 2 else if c < 32 then 6 else 1).sum
  else str.bytes.length

/-- The room that `print_string_ptr` allocates. -/
def printStringRoom (str : CString) : Int := intOf (escapedLength str + 3)

/-! ### What is read has no `NUL` -/

theorem continuation_eq (uc : Nat) : continuation uc = UInt8.ofNat (uc % 64 + 128) := by
  have hbyte : ∀ n, n < 256 → (n ||| 0x80) &&& 0xBF = n % 64 + 128 := by decide +kernel
  have hmask : ∀ x : Nat, x &&& 0xBF = (x % 2 ^ 8) &&& 0xBF := by
    intro x
    rw [← Nat.and_two_pow_sub_one_eq_mod x 8, Nat.and_assoc]
    exact congrArg (x &&& ·) (by decide)
  have hlow : (uc ||| 0x80) &&& 0xBF = (uc % 2 ^ 8 ||| 0x80) &&& 0xBF := by
    rw [hmask (uc ||| 0x80), Nat.or_mod_two_pow]
  have hmod : uc % 2 ^ 8 % 64 = uc % 64 := Nat.mod_mod_of_dvd _ (by decide)
  rw [continuation, hlow, hbyte (uc % 2 ^ 8) (Nat.mod_lt _ (by decide)), hmod]

theorem or_mark {i n : Nat} (a : Nat) (h : n < 2 ^ i) : n ||| 2 ^ i * a = n + 2 ^ i * a := by
  rw [Nat.or_comm, ← Nat.two_pow_add_eq_or_of_lt h, Nat.add_comm]

/-- The encoding of a character is that of Lean. -/
theorem encodeUtf8_toNat (c : Char) : encodeUtf8 c.toNat = String.utf8EncodeChar c := by
  have hmax : c.toNat < 0x110000 := by
    rcases c.valid with h | h
    · exact h.trans (by decide)
    · exact h.2
  have hval : c.val.toNat = c.toNat := rfl
  unfold encodeUtf8 String.utf8EncodeChar
  simp only [hval, continuation_eq, Nat.shiftRight_eq_div_pow]
  generalize c.toNat = uc at hmax
  by_cases h₁ : uc < 0x80
  · rw [if_pos h₁, if_pos (by omega), Nat.or_zero]
  · by_cases h₂ : uc < 0x800
    · have hfirst : uc / 2 ^ 6 ||| 0xC0 = uc / 64 % 32 + 192 := by
        rw [show 0xC0 = 2 ^ 6 * 3 from rfl, or_mark 3 (by omega)]
        omega
      rw [if_neg h₁, if_pos h₂, if_neg (by omega), if_pos (by omega), hfirst]
    · by_cases h₃ : uc < 0x10000
      · have hfirst : uc / 2 ^ 12 ||| 0xE0 = uc / 4096 % 16 + 224 := by
          rw [show 0xE0 = 2 ^ 5 * 7 from rfl, or_mark 7 (by omega)]
          omega
        rw [if_neg h₁, if_neg h₂, if_pos h₃, if_neg (by omega), if_neg (by omega), if_pos (by omega), hfirst]
      · have hfirst : uc / 2 ^ 18 ||| 0xF0 = uc / 262144 % 8 + 240 := by
          rw [show 0xF0 = 2 ^ 4 * 15 from rfl, or_mark 15 (by omega)]
          omega
        rw [if_neg h₁, if_neg h₂, if_neg h₃, if_neg (by omega), if_neg (by omega), if_neg (by omega), hfirst]

theorem ofNat_ne_zero {n : Nat} (hpos : 0 < n % 256) : UInt8.ofNat n ≠ 0 := by
  intro h
  have htoNat := congrArg UInt8.toNat h
  simp only [UInt8.toNat_ofNat', UInt8.toNat_zero] at htoNat
  omega

theorem continuation_ne_zero (uc : Nat) : continuation uc ≠ 0 := by
  rw [continuation_eq]
  exact ofNat_ne_zero (by omega)

/-- Only the code point 0 has a 0 in its encoding. -/
theorem encodeUtf8_nul {uc : Nat} (hpos : uc ≠ 0) (hmax : uc < 0x110000) : (0 : UInt8) ∉ encodeUtf8 uc := by
  have hcont := fun n => (continuation_ne_zero n).symm
  unfold encodeUtf8
  simp only [Nat.shiftRight_eq_div_pow]
  split_ifs with h₁ h₂ h₃
  · simp only [Nat.or_zero, List.mem_singleton]
    exact (ofNat_ne_zero (by omega)).symm
  · have hfirst : UInt8.ofNat (uc / 2 ^ 6 ||| 0xC0) ≠ 0 := by
      rw [show 0xC0 = 2 ^ 6 * 3 from rfl, or_mark 3 (by omega)]
      exact ofNat_ne_zero (by omega)
    simp only [List.mem_cons, List.not_mem_nil, or_false, not_or]
    exact ⟨hfirst.symm, hcont _⟩
  · have hfirst : UInt8.ofNat (uc / 2 ^ 12 ||| 0xE0) ≠ 0 := by
      rw [show 0xE0 = 2 ^ 5 * 7 from rfl, or_mark 7 (by omega)]
      exact ofNat_ne_zero (by omega)
    simp only [List.mem_cons, List.not_mem_nil, or_false, not_or]
    exact ⟨hfirst.symm, hcont _, hcont _⟩
  · have hfirst : UInt8.ofNat (uc / 2 ^ 18 ||| 0xF0) ≠ 0 := by
      rw [show 0xF0 = 2 ^ 4 * 15 from rfl, or_mark 15 (by omega)]
      exact ofNat_ne_zero (by omega)
    simp only [List.mem_cons, List.not_mem_nil, or_false, not_or]
    exact ⟨hfirst.symm, hcont _, hcont _, hcont _⟩

/-- What the first loop of `parse_string` steps over. -/
theorem scan_spec {text : Bytes} {len : Nat} {literal rest : Bytes} (h : scan text = some (len, literal, rest)) :
    text = literal ++ rest ∧ (0 : UInt8) ∉ literal ∧ ∀ c ∈ rest.head?, c = quote ∨ c = 0 := by
  fun_induction scan text generalizing len literal rest with
  | case1 =>
      obtain ⟨rfl, rfl, rfl⟩ : 0 = len ∧ [] = literal ∧ [] = rest := by simpa using h
      simp
  | case2 c more hend =>
      obtain ⟨rfl, rfl, rfl⟩ : 0 = len ∧ [] = literal ∧ c :: more = rest := by simpa using h
      simp [hend]
  | case3 => simp at h
  | case4 => simp at h
  | case5 d more hd hend ih =>
      obtain ⟨len', literal', rest', hmore, rfl, rfl, rfl⟩ :
          ∃ len' literal' rest', scan more = some (len', literal', rest') ∧ len' + 1 = len ∧
            backslash :: d :: literal' = literal ∧ rest' = rest := by
        simpa using h
      obtain ⟨rfl, hnul, hrest⟩ := ih hmore
      refine ⟨rfl, ?_, hrest⟩
      simp only [List.mem_cons, not_or]
      exact ⟨by decide, Ne.symm hd, hnul⟩
  | case6 c more hend hback ih =>
      obtain ⟨len', literal', rest', hmore, rfl, rfl, rfl⟩ :
          ∃ len' literal' rest', scan more = some (len', literal', rest') ∧ len' + 1 = len ∧
            c :: literal' = literal ∧ rest' = rest := by
        simpa using h
      obtain ⟨rfl, hnul, hrest⟩ := ih hmore
      refine ⟨rfl, ?_, hrest⟩
      simp only [List.mem_cons, not_or]
      exact ⟨fun hzero => hend (Or.inr hzero.symm), hnul⟩

/-- What the second loop of `parse_string` writes for a literal, up to the place where it gives up or to the end. -/
inductive Writes : Bytes → Bytes → Prop where
  | stop {literal : Bytes} : Writes literal []
  | plain {c : UInt8} {literal written : Bytes} : c ≠ backslash → Writes literal written →
      Writes (c :: literal) (c :: written)
  | letter {d e : UInt8} {literal written : Bytes} : unescape d = some e → Writes literal written →
      Writes (backslash :: d :: literal) (e :: written)
  | unicode {h₁ h₂ h₃ h₄ : UInt8} {literal written : Bytes} : parseHex4 h₁ h₂ h₃ h₄ ≠ 0 → Writes literal written →
      Writes (backslash :: letterU :: h₁ :: h₂ :: h₃ :: h₄ :: literal)
        (encodeUtf8 (parseHex4 h₁ h₂ h₃ h₄) ++ written)
  | pair {h₁ h₂ h₃ h₄ l₁ l₂ l₃ l₄ : UInt8} {uc : Nat} {literal written : Bytes} : parseHex4 h₁ h₂ h₃ h₄ ≠ 0 →
      parseHex4 l₁ l₂ l₃ l₄ ≠ 0 → uc < 2 ^ 20 → Writes literal written →
      Writes (backslash :: letterU :: h₁ :: h₂ :: h₃ :: h₄ :: backslash :: letterU :: l₁ :: l₂ :: l₃ :: l₄ :: literal)
        (encodeUtf8 (0x10000 + uc) ++ written)

theorem writes_writeString (literal : Bytes) : Writes literal (writeString literal).1 := by
  fun_induction writeString literal with
  | case1 => exact .stop
  | case2 c rest hc ih => exact .plain hc ih
  | case3 => exact .stop
  | case4 c hc d rest e he ih =>
      obtain rfl := not_not.mp hc
      exact .letter he ih
  | case5 => exact .stop
  | case6 => exact .stop
  | case7 => exact .stop
  | case8 => exact .stop
  | case9 c hc d hd hu h₁ h₂ h₃ h₄ uc hvalid hhigh b u l₁ l₂ l₃ l₄ rest uc₂ hescape hlow =>
      rename_i ih
      obtain rfl := not_not.mp hc
      obtain rfl := not_not.mp hu
      obtain ⟨hb, hu'⟩ := not_or.mp hescape
      obtain rfl := not_not.mp hb
      obtain rfl := not_not.mp hu'
      have hbound : (uc &&& 0x3FF) <<< 10 ||| uc₂ &&& 0x3FF < 2 ^ 20 := by
        have hupper : uc &&& 0x3FF < 2 ^ 10 := Nat.and_lt_two_pow _ (by decide)
        apply Nat.or_lt_two_pow
        · rw [Nat.shiftLeft_eq]
          omega
        · exact (Nat.and_lt_two_pow _ (by decide : 0x3FF < 2 ^ 10)).trans (by decide)
      exact .pair (fun hzero => hvalid (Or.inr hzero)) (fun hzero => hlow (Or.inl (by omega))) hbound ih
  | case10 => exact .stop
  | case11 c hc d hd hu h₁ h₂ h₃ h₄ rest uc hvalid hhigh =>
      rename_i ih
      obtain rfl := not_not.mp hc
      obtain rfl := not_not.mp hu
      exact .unicode (fun hzero => hvalid (Or.inr hzero)) ih
  | case12 => exact .stop

theorem writeString_of_decode {literal value : Bytes} (h : decode literal = some value) :
    (writeString literal).1 = value := by
  unfold decode at h
  split_ifs at h
  exact Option.some.inj h

theorem hexDigit_lt {c : UInt8} {n : Nat} (h : hexDigit c = some n) : n < 16 ∧ c ≠ backslash := by
  constructor
  · unfold hexDigit at h
    simp only [UInt8.le_iff_toNat_le, UInt8.reduceToNat] at h
    split_ifs at h <;> grind
  · intro hc
    have hnone : hexDigit backslash = none := by decide
    rw [hc, hnone] at h
    simp at h

theorem parseHex4_digits {a b c d : UInt8} (h : parseHex4 a b c d ≠ 0) :
    parseHex4 a b c d < 0x10000 ∧ a ≠ backslash ∧ b ≠ backslash ∧ c ≠ backslash ∧ d ≠ backslash := by
  unfold parseHex4 at h ⊢
  split at h
  · next ha hb hc hd =>
      obtain ⟨ha, hane⟩ := hexDigit_lt ha
      obtain ⟨hb, hbne⟩ := hexDigit_lt hb
      obtain ⟨hc, hcne⟩ := hexDigit_lt hc
      obtain ⟨hd, hdne⟩ := hexDigit_lt hd
      exact ⟨by omega, hane, hbne, hcne, hdne⟩
  · simp at h

theorem unescape_ne_zero {d e : UInt8} (h : unescape d = some e) (hd : d ≠ 0) : e ≠ 0 := by
  unfold unescape at h
  split_ifs at h <;> grind

/-- There is no `NUL` in what is written for a literal. -/
theorem Writes.nul {literal written : Bytes} (h : Writes literal written) (hliteral : (0 : UInt8) ∉ literal) :
    (0 : UInt8) ∉ written := by
  induction h with
  | stop => exact List.not_mem_nil
  | plain hc _ ih =>
      obtain ⟨hzero, hrest⟩ := not_or.mp (mt List.mem_cons.mpr hliteral)
      simp only [List.mem_cons, not_or]
      exact ⟨hzero, ih hrest⟩
  | letter he _ ih =>
      simp only [List.mem_cons, not_or] at hliteral ⊢
      exact ⟨(unescape_ne_zero he (Ne.symm hliteral.2.1)).symm, ih hliteral.2.2⟩
  | unicode huc _ ih =>
      simp only [List.mem_cons, not_or] at hliteral
      have hbound := (parseHex4_digits huc).1
      simp only [List.mem_append, not_or]
      exact ⟨encodeUtf8_nul huc (by omega), ih (by tauto)⟩
  | pair _ _ huc _ ih =>
      simp only [List.mem_cons, not_or] at hliteral
      simp only [List.mem_append, not_or]
      exact ⟨encodeUtf8_nul (by omega) (by omega), ih (by tauto)⟩

theorem decode_nul {literal value : Bytes} (h : decode literal = some value) (hliteral : (0 : UInt8) ∉ literal) :
    (0 : UInt8) ∉ value :=
  writeString_of_decode h ▸ (writes_writeString literal).nul hliteral

/-- `parse_string`: the string and the text after it. -/
def parseString (text : Bytes) : Option (CString × Bytes) :=
  match text with
  | [] => none
  | c :: body =>
      if c ≠ quote then none
      else
        match hscan : scan body with
        | none => none
        | some (_, literal, rest) =>
            match hdecode : decode literal with
            | none => none
            | some value =>
                let str : CString := ⟨value, decode_nul hdecode (scan_spec hscan).2.1⟩
                some (str, if rest.head? = some quote then rest.tail else rest)

theorem parseString_eq {body literal rest value : Bytes} {len : Nat} (hscan : scan body = some (len, literal, rest))
    (hdecode : decode literal = some value) (hnul : (0 : UInt8) ∉ value) :
    parseString (quote :: body) = some (⟨value, hnul⟩, if rest.head? = some quote then rest.tail else rest) := by
  unfold parseString
  dsimp only
  rw [if_neg (by simp)]
  split
  · next h => simp [hscan] at h
  · next len' literal' rest' h =>
      obtain ⟨rfl, rfl, rfl⟩ : len = len' ∧ literal = literal' ∧ rest = rest' := by simpa [hscan] using h
      split
      · next h => simp [hdecode] at h
      · next value' h =>
          obtain rfl : value = value' := by simpa [hdecode] using h
          rfl

/-! ### What is written is read back -/

theorem hexDigit_hexChar {n : Nat} (h : n < 16) : hexDigit (hexChar n) = some n := by
  revert n
  decide

/-- The number of a control character. -/
theorem parseHex4_control {c : UInt8} (h : c.toNat < 32) :
    parseHex4 48 48 (hexChar (c.toNat / 16)) (hexChar (c.toNat % 16)) = c.toNat := by
  have hzero : hexDigit 48 = some 0 := by decide
  rw [parseHex4, hzero, hexDigit_hexChar (by omega), hexDigit_hexChar (by omega)]
  dsimp only
  omega

/-- The ways in which a character is written: as it is, with a letter, or as a number. -/
theorem escape_cases (c : UInt8) :
    (escape c = [c] ∧ c ≠ quote ∧ c ≠ backslash) ∨
      (∃ d, escape c = [backslash, d] ∧ d ≠ 0 ∧ unescape d = some c) ∨
      (escape c = [backslash, letterU, 48, 48, hexChar (c.toNat / 16), hexChar (c.toNat % 16)] ∧ c.toNat < 32) := by
  unfold escape
  split_ifs with h₁ h₂ h₃ h₄ h₅ h₆ h₇ h₈
  · exact Or.inl ⟨rfl, h₁.2⟩
  · exact Or.inr (Or.inl ⟨_, rfl, by decide, by rw [h₂]; decide⟩)
  · exact Or.inr (Or.inl ⟨_, rfl, by decide, by rw [h₃]; decide⟩)
  · exact Or.inr (Or.inl ⟨_, rfl, by decide, by rw [h₄]; decide⟩)
  · exact Or.inr (Or.inl ⟨_, rfl, by decide, by rw [h₅]; decide⟩)
  · exact Or.inr (Or.inl ⟨_, rfl, by decide, by rw [h₆]; decide⟩)
  · exact Or.inr (Or.inl ⟨_, rfl, by decide, by rw [h₇]; decide⟩)
  · exact Or.inr (Or.inl ⟨_, rfl, by decide, by rw [h₈]; decide⟩)
  · refine Or.inr (Or.inr ⟨rfl, ?_⟩)
    have hle : ¬31 < c := fun h => h₁ ⟨h, h₃, h₂⟩
    rw [UInt8.lt_iff_toNat_lt] at hle
    have := not_lt.mp hle
    simp only [UInt8.reduceToNat] at this
    omega

theorem scan_cons {c : UInt8} {text : Bytes} (hquote : c ≠ quote) (hzero : c ≠ 0) (hback : c ≠ backslash) :
    scan (c :: text) = (scan text).map fun (len, literal, rest) => (len + 1, c :: literal, rest) := by
  rw [scan.eq_def]
  simp [hquote, hzero, hback]

theorem scan_quote (rest : Bytes) : scan (quote :: rest) = some (0, [], quote :: rest) := by
  rw [scan.eq_def]
  simp

theorem scan_backslash {d : UInt8} {text : Bytes} (hd : d ≠ 0) : scan (backslash :: d :: text) =
    (scan text).map fun (len, literal, rest) => (len + 1, backslash :: d :: literal, rest) := by
  rw [scan.eq_def]
  dsimp only
  rw [if_neg (by decide), if_pos rfl, if_neg hd]

theorem scan_escape {c : UInt8} {tail literal rest : Bytes} {len : Nat} (hc : c ≠ 0)
    (h : scan tail = some (len, literal, rest)) :
    ∃ len', scan (escape c ++ tail) = some (len', escape c ++ literal, rest) := by
  rcases escape_cases c with ⟨hesc, hquote, hback⟩ | ⟨d, hesc, hd, -⟩ | ⟨hesc, hlt⟩
  · exact ⟨len + 1, by rw [hesc, List.singleton_append, scan_cons hquote hc hback, h]; rfl⟩
  · exact ⟨len + 1, by rw [hesc, List.cons_append, List.singleton_append, scan_backslash hd, h]; rfl⟩
  · have hhex : ∀ n, n < 16 → hexChar n ≠ quote ∧ hexChar n ≠ 0 ∧ hexChar n ≠ backslash := by decide
    have hhigh := hhex (c.toNat / 16) (by omega)
    have hlow := hhex (c.toNat % 16) (by omega)
    refine ⟨len + 5, ?_⟩
    simp only [hesc, List.cons_append, List.nil_append]
    rw [scan_backslash (by decide), scan_cons (by decide) (by decide) (by decide),
      scan_cons (by decide) (by decide) (by decide), scan_cons hhigh.1 hhigh.2.1 hhigh.2.2,
      scan_cons hlow.1 hlow.2.1 hlow.2.2, h]
    rfl

theorem decode_eq_map {literal rest : Bytes} {f : Bytes → Bytes}
    (h : writeString literal = (writeString rest).map f id) : decode literal = (decode rest).map f := by
  rw [decode, decode, h, Prod.map_snd, Prod.map_fst, id]
  split_ifs <;> rfl

theorem decode_cons {c : UInt8} {literal : Bytes} (hc : c ≠ backslash) :
    decode (c :: literal) = (decode literal).map (c :: ·) := by
  apply decode_eq_map
  rw [writeString.eq_def]
  simp [hc]

theorem decode_letter {d e : UInt8} {literal : Bytes} (hd : unescape d = some e) :
    decode (backslash :: d :: literal) = (decode literal).map (e :: ·) := by
  apply decode_eq_map
  rw [writeString.eq_def]
  simp [hd]

/-- An escape sequence with the number of a character. -/
theorem decode_unicode {h₁ h₂ h₃ h₄ : UInt8} {n : Nat} {tail : Bytes} (hhex : parseHex4 h₁ h₂ h₃ h₄ = n) (hpos : n ≠ 0)
    (hplain : ¬(0xD800 ≤ n ∧ n ≤ 0xDFFF)) :
    decode (backslash :: letterU :: h₁ :: h₂ :: h₃ :: h₄ :: tail) = (decode tail).map (encodeUtf8 n ++ ·) := by
  have hunescape : unescape letterU = none := by decide
  have hvalid : ¬(0xDC00 ≤ n ∧ n ≤ 0xDFFF ∨ n = 0) := by omega
  have hhigh : ¬(0xD800 ≤ n ∧ n ≤ 0xDBFF) := by omega
  apply decode_eq_map
  simp only [writeString, ne_eq, not_true_eq_false, if_false, hunescape, hhex, hvalid, hhigh]

theorem decode_escape {c : UInt8} {tail value : Bytes} (hc : c ≠ 0) (h : decode tail = some value) :
    decode (escape c ++ tail) = some (c :: value) := by
  rcases escape_cases c with ⟨hesc, -, hback⟩ | ⟨d, hesc, -, hd⟩ | ⟨hesc, hlt⟩
  · rw [hesc, List.singleton_append, decode_cons hback, h]
    rfl
  · rw [hesc, List.cons_append, List.singleton_append, decode_letter hd, h]
    rfl
  · have hpos : c.toNat ≠ 0 := fun hzero => hc (UInt8.toNat_inj.mp hzero)
    have hencode : encodeUtf8 c.toNat = [c] := by
      rw [encodeUtf8, if_pos (by omega), Nat.or_zero, UInt8.ofNat_toNat]
    simp only [hesc, List.cons_append, List.nil_append]
    rw [decode_unicode (parseHex4_control hlt) hpos (by omega), h, hencode]
    rfl

/-- The text of a string as one expression: what needs no escape is its own. -/
theorem printStringPtr_eq (str : CString) : printStringPtr str = quote :: (str.bytes.flatMap escape ++ [quote]) := by
  unfold printStringPtr
  split
  · rfl
  · next hflag =>
      have hplain : ∀ c ∈ str.bytes, escape c = [c] := by
        intro c hc
        have hnot : ¬((0 < c ∧ c < 32) ∨ c = quote ∨ c = backslash) := by
          have := mt List.any_eq_true.mpr hflag
          push Not at this
          simpa [flagged] using this c hc
        have hpos : c ≠ 0 := fun hzero => str.nul (hzero ▸ hc)
        obtain ⟨hrange, hquote, hback⟩ : ¬(0 < c ∧ c < 32) ∧ c ≠ quote ∧ c ≠ backslash := by tauto
        have hlt : 31 < c := by
          have hnat : c.toNat ≠ 0 := fun hzero => hpos (UInt8.toNat_inj.mp hzero)
          simp only [UInt8.lt_iff_toNat_lt, UInt8.reduceToNat] at hrange ⊢
          omega
        rw [escape, if_pos ⟨hlt, hquote, hback⟩]
      rw [List.flatMap_congr hplain, List.flatMap_singleton']

/-- `parse_string` reads what `print_string_ptr` has written. -/
theorem parseString_print (str : CString) (rest : Bytes) :
    parseString (printStringPtr str ++ rest) = some (str, rest) := by
  obtain ⟨bytes, hnul⟩ := str
  have hscan : ∃ len,
      scan (bytes.flatMap escape ++ quote :: rest) = some (len, bytes.flatMap escape, quote :: rest) := by
    induction bytes with
    | nil => exact ⟨0, scan_quote rest⟩
    | cons c bytes ih =>
        obtain ⟨hc, hrest⟩ := not_or.mp (mt List.mem_cons.mpr hnul)
        obtain ⟨len, hlen⟩ := ih hrest
        obtain ⟨len', hlen'⟩ := scan_escape (Ne.symm hc) hlen
        exact ⟨len', by simpa using hlen'⟩
  have hdecode : decode (bytes.flatMap escape) = some bytes := by
    clear hscan
    induction bytes with
    | nil => rfl
    | cons c bytes ih =>
        obtain ⟨hc, hrest⟩ := not_or.mp (mt List.mem_cons.mpr hnul)
        exact decode_escape (Ne.symm hc) (ih hrest)
  obtain ⟨len, hlen⟩ := hscan
  rw [printStringPtr_eq, List.cons_append, List.append_assoc, List.singleton_append,
    parseString_eq hlen hdecode hnul]
  rfl

/-! ### The room for it -/

theorem escapedLength_eq (str : CString) : escapedLength str + 2 = (printStringPtr str).length := by
  unfold escapedLength printStringPtr
  split
  · have hlen : ∀ c, (if c ∈ [quote, backslash, 8, 12, 10, 13, 9] then 2 else if c < 32 then 6 else 1) =
        (escape c).length := by
      intro c
      have hall : ∀ n : Fin 256,
          (if UInt8.ofNat n ∈ [quote, backslash, 8, 12, 10, 13, 9] then 2 else if UInt8.ofNat n < 32 then 6 else 1) =
            (escape (UInt8.ofNat n)).length := by
        decide +kernel
      simpa using hall ⟨c.toNat, c.toNat_lt⟩
    simp only [hlen, List.length_cons, List.length_append, List.length_flatMap, List.length_nil]
  · simp

/-- `print_string_ptr` allocates what its text and the `NUL` need. -/
theorem printStringRoom_eq {str : CString} (h : (printStringPtr str).length + 1 < 2 ^ 31) :
    printStringRoom str = (printStringPtr str).length + 1 := by
  have hlen := escapedLength_eq str
  rw [printStringRoom, intOf_eq (by omega)]
  omega

theorem scan_cons_inv {c : UInt8} {text literal rest : Bytes} {len : Nat} (hc : c ≠ backslash)
    (h : scan text = some (len, c :: literal, rest)) :
    ∃ text' len', scan text' = some (len', literal, rest) ∧ len = len' + 1 := by
  obtain ⟨rfl, -, -⟩ := scan_spec h
  rw [List.cons_append, scan.eq_def] at h
  dsimp only at h
  split_ifs at h with hend
  · simp at h
  · obtain ⟨⟨len', literal', rest'⟩, hmore, heq⟩ := Option.map_eq_some_iff.mp h
    obtain ⟨rfl, hcons, rfl⟩ : len' + 1 = len ∧ c :: literal' = c :: literal ∧ rest' = rest := by simpa using heq
    obtain ⟨-, rfl⟩ := List.cons.inj hcons
    exact ⟨_, len', hmore, rfl⟩

theorem scan_backslash_inv {d : UInt8} {text literal rest : Bytes} {len : Nat}
    (h : scan text = some (len, backslash :: d :: literal, rest)) :
    ∃ text' len', scan text' = some (len', literal, rest) ∧ len = len' + 1 := by
  obtain ⟨rfl, hnul, -⟩ := scan_spec h
  have hd : d ≠ 0 := fun hzero => hnul (by simp [hzero])
  rw [List.cons_append, List.cons_append, scan_backslash hd] at h
  obtain ⟨⟨len', literal', rest'⟩, hmore, heq⟩ := Option.map_eq_some_iff.mp h
  obtain ⟨rfl, rfl, rfl⟩ : len' + 1 = len ∧ literal' = literal ∧ rest' = rest := by simpa using heq
  exact ⟨_, len', hmore, rfl⟩

theorem encodeUtf8_length (uc : Nat) : (encodeUtf8 uc).length ≤ 4 := by
  unfold encodeUtf8
  split_ifs <;> simp

/-- The first loop of `parse_string` counts no less than what the second one writes. -/
theorem Writes.length_le {literal written : Bytes} (h : Writes literal written) {text rest : Bytes} {len : Nat}
    (hscan : scan text = some (len, literal, rest)) : written.length ≤ len := by
  induction h generalizing text len with
  | stop => exact Nat.zero_le _
  | plain hc _ ih =>
      obtain ⟨text', len', hscan', rfl⟩ := scan_cons_inv hc hscan
      exact Nat.succ_le_succ (ih hscan')
  | letter _ _ ih =>
      obtain ⟨text', len', hscan', rfl⟩ := scan_backslash_inv hscan
      exact Nat.succ_le_succ (ih hscan')
  | @unicode h₁ h₂ h₃ h₄ literal written huc _ ih =>
      -- the digits count one each
      obtain ⟨-, hb₁, hb₂, hb₃, hb₄⟩ := parseHex4_digits huc
      obtain ⟨_, len₁, hscan₁, rfl⟩ := scan_backslash_inv hscan
      obtain ⟨_, len₂, hscan₂, rfl⟩ := scan_cons_inv hb₁ hscan₁
      obtain ⟨_, len₃, hscan₃, rfl⟩ := scan_cons_inv hb₂ hscan₂
      obtain ⟨_, len₄, hscan₄, rfl⟩ := scan_cons_inv hb₃ hscan₃
      obtain ⟨_, len₅, hscan₅, rfl⟩ := scan_cons_inv hb₄ hscan₄
      have hlen := encodeUtf8_length (parseHex4 h₁ h₂ h₃ h₄)
      have htail := ih hscan₅
      rw [List.length_append]
      omega
  | @pair h₁ h₂ h₃ h₄ l₁ l₂ l₃ l₄ uc literal written huc huc₂ _ _ ih =>
      obtain ⟨-, hb₁, hb₂, hb₃, hb₄⟩ := parseHex4_digits huc
      obtain ⟨_, len₁, hscan₁, rfl⟩ := scan_backslash_inv hscan
      obtain ⟨_, len₂, hscan₂, rfl⟩ := scan_cons_inv hb₁ hscan₁
      obtain ⟨_, len₃, hscan₃, rfl⟩ := scan_cons_inv hb₂ hscan₂
      obtain ⟨_, len₄, hscan₄, rfl⟩ := scan_cons_inv hb₃ hscan₃
      obtain ⟨_, len₅, hscan₅, rfl⟩ := scan_cons_inv hb₄ hscan₄
      obtain ⟨_, len₆, hscan₆, rfl⟩ := scan_backslash_inv hscan₅
      obtain ⟨-, hb₁, hb₂, hb₃, hb₄⟩ := parseHex4_digits huc₂
      obtain ⟨_, len₇, hscan₇, rfl⟩ := scan_cons_inv hb₁ hscan₆
      obtain ⟨_, len₈, hscan₈, rfl⟩ := scan_cons_inv hb₂ hscan₇
      obtain ⟨_, len₉, hscan₉, rfl⟩ := scan_cons_inv hb₃ hscan₈
      obtain ⟨_, len', hscan', rfl⟩ := scan_cons_inv hb₄ hscan₉
      have hlen := encodeUtf8_length (0x10000 + uc)
      have htail := ih hscan'
      rw [List.length_append]
      omega

theorem scan_length {text literal rest : Bytes} {len : Nat} (h : scan text = some (len, literal, rest)) :
    len ≤ text.length := by
  fun_induction scan text generalizing len literal rest with
  | case1 =>
      obtain ⟨rfl, -⟩ : 0 = len ∧ _ := by simpa using h
      exact le_rfl
  | case2 =>
      obtain ⟨rfl, -⟩ : 0 = len ∧ _ := by simpa using h
      exact Nat.zero_le _
  | case3 => simp at h
  | case4 => simp at h
  | case5 d more hd hend ih =>
      obtain ⟨⟨len', literal', rest'⟩, hmore, heq⟩ := Option.map_eq_some_iff.mp h
      obtain ⟨rfl, -⟩ := Prod.mk.inj heq
      exact Nat.le_succ_of_le (Nat.succ_le_succ (ih hmore))
  | case6 c more hend hback ih =>
      obtain ⟨⟨len', literal', rest'⟩, hmore, heq⟩ := Option.map_eq_some_iff.mp h
      obtain ⟨rfl, -⟩ := Prod.mk.inj heq
      exact Nat.succ_le_succ (ih hmore)

/-- **The room for a string.** What the second loop of `parse_string` writes, whatever escape sequences it decodes and
wherever it gives up, fits with the `NUL` into the memory that the first loop has counted. -/
theorem decode_room (text literal rest : Bytes) (len : Nat) (htext : text.length + 1 < 2 ^ 31)
    (hscan : scan text = some (len, literal, rest)) :
    ((writeString literal).1.length : Int) + 1 ≤ parseStringRoom len := by
  have hcount := scan_length hscan
  have hwritten := (writes_writeString literal).length_le hscan
  rw [parseStringRoom, intOf_eq (by omega)]
  omega

/-- A letter with its number, and then an escape sequence that there is not. -/
theorem decode_room_umlaut :
    ((writeString [backslash, letterU, 48, 48, 101, 52, backslash, 120]).1.length : Int) + 1 ≤ parseStringRoom 6 :=
  decode_room [backslash, letterU, 48, 48, 101, 52, backslash, 120, quote]
    [backslash, letterU, 48, 48, 101, 52, backslash, 120] [quote] 6 (by decide) (by decide)

/-! ### Numbers of characters -/

/-- The escape sequence with the number `n`. -/
def numberEscape (n : Nat) : Bytes :=
  [backslash, letterU, hexChar (n / 4096), hexChar (n / 256 % 16), hexChar (n / 16 % 16), hexChar (n % 16)]

/-- A character as a client writes it that uses printable ASCII only: as itself, or as one or two numbers. -/
def asciiEscape (c : Char) : Bytes :=
  if 32 ≤ c.toNat ∧ c.toNat < 127 ∧ c ≠ '"' ∧ c ≠ '\\' then [UInt8.ofNat c.toNat]
  else if c.toNat < 0x10000 then numberEscape c.toNat
  else numberEscape (0xD800 + (c.toNat - 0x10000) / 1024) ++ numberEscape (0xDC00 + (c.toNat - 0x10000) % 1024)

theorem parseHex4_number {n : Nat} (h : n < 0x10000) :
    parseHex4 (hexChar (n / 4096)) (hexChar (n / 256 % 16)) (hexChar (n / 16 % 16)) (hexChar (n % 16)) = n := by
  rw [parseHex4, hexDigit_hexChar (by omega), hexDigit_hexChar (by omega), hexDigit_hexChar (by omega),
    hexDigit_hexChar (by omega)]
  dsimp only
  omega

theorem surrogates_eq {v : Nat} (h : v < 2 ^ 20) :
    ((0xD800 + v / 1024) &&& 0x3FF) <<< 10 ||| (0xDC00 + v % 1024) &&& 0x3FF = v := by
  have hmask : ∀ n : Nat, n &&& 0x3FF = n % 2 ^ 10 := fun n => Nat.and_two_pow_sub_one_eq_mod n 10
  have hlow : (0xDC00 + v % 1024) % 2 ^ 10 < 2 ^ 10 := Nat.mod_lt _ (by decide)
  rw [hmask, hmask, Nat.shiftLeft_eq, Nat.mul_comm, ← Nat.two_pow_add_eq_or_of_lt hlow]
  omega

theorem decode_number {n : Nat} {tail : Bytes} (h : n < 0x10000) (hpos : n ≠ 0)
    (hplain : ¬(0xD800 ≤ n ∧ n ≤ 0xDFFF)) :
    decode (numberEscape n ++ tail) = (decode tail).map (encodeUtf8 n ++ ·) := by
  simp only [numberEscape, List.cons_append, List.nil_append]
  exact decode_unicode (parseHex4_number h) hpos hplain

theorem decode_surrogates {v : Nat} {tail : Bytes} (h : v < 2 ^ 20) :
    decode (numberEscape (0xD800 + v / 1024) ++ numberEscape (0xDC00 + v % 1024) ++ tail) =
      (decode tail).map (encodeUtf8 (0x10000 + v) ++ ·) := by
  have hunescape : unescape letterU = none := by decide
  have hhex : parseHex4 (hexChar ((0xD800 + v / 1024) / 4096)) (hexChar ((0xD800 + v / 1024) / 256 % 16))
      (hexChar ((0xD800 + v / 1024) / 16 % 16)) (hexChar ((0xD800 + v / 1024) % 16)) = 0xD800 + v / 1024 :=
    parseHex4_number (by omega)
  have hhex' : parseHex4 (hexChar ((0xDC00 + v % 1024) / 4096)) (hexChar ((0xDC00 + v % 1024) / 256 % 16))
      (hexChar ((0xDC00 + v % 1024) / 16 % 16)) (hexChar ((0xDC00 + v % 1024) % 16)) = 0xDC00 + v % 1024 :=
    parseHex4_number (by omega)
  have hvalid : ¬(0xDC00 ≤ 0xD800 + v / 1024 ∧ 0xD800 + v / 1024 ≤ 0xDFFF ∨ 0xD800 + v / 1024 = 0) := by omega
  have hhigh : 0xD800 ≤ 0xD800 + v / 1024 ∧ 0xD800 + v / 1024 ≤ 0xDBFF := by omega
  have hlow : ¬(0xDC00 + v % 1024 < 0xDC00 ∨ 0xDC00 + v % 1024 > 0xDFFF) := by omega
  apply decode_eq_map
  simp only [numberEscape, List.cons_append, List.nil_append, writeString, ne_eq, not_true_eq_false, if_false,
    hunescape, hhex, hhex', hvalid, hhigh, and_self, if_true, or_self, hlow, surrogates_eq h]

/-- A printable character is one byte, and neither the quote nor the backslash. -/
theorem printable_byte {c : Char} (h : 32 ≤ c.toNat ∧ c.toNat < 127 ∧ c ≠ '"' ∧ c ≠ '\\') :
    UInt8.ofNat c.toNat ≠ quote ∧ UInt8.ofNat c.toNat ≠ 0 ∧ UInt8.ofNat c.toNat ≠ backslash := by
  obtain ⟨hlow, hhigh, hquote, hback⟩ := h
  have hbyte : (UInt8.ofNat c.toNat).toNat = c.toNat := by
    rw [UInt8.toNat_ofNat', Nat.mod_eq_of_lt (by omega)]
  have hchar : ∀ d : Char, c.toNat = d.toNat → c = d := by
    intro d heq
    rw [← Char.ofNat_toNat c, ← Char.ofNat_toNat d, heq]
  refine ⟨fun heq => hquote (hchar _ ?_), fun heq => ?_, fun heq => hback (hchar _ ?_)⟩
  · rw [← hbyte, heq]
    rfl
  · rw [heq] at hbyte
    simp only [UInt8.toNat_zero] at hbyte
    omega
  · rw [← hbyte, heq]
    rfl

theorem decode_ascii {c : Char} {tail : Bytes} (hc : c.toNat ≠ 0) :
    decode (asciiEscape c ++ tail) = (decode tail).map (String.utf8EncodeChar c ++ ·) := by
  have hvalid : c.toNat < 0xD800 ∨ 0xDFFF < c.toNat ∧ c.toNat < 0x110000 := c.valid
  unfold asciiEscape
  rw [← encodeUtf8_toNat]
  split_ifs with hprint hshort
  · obtain ⟨-, -, hback⟩ := printable_byte hprint
    rw [List.singleton_append, decode_cons hback, encodeUtf8, if_pos (by omega), Nat.or_zero]
    rfl
  · exact decode_number hshort hc (by omega)
  · have hsplit : 0x10000 + (c.toNat - 0x10000) = c.toNat := by omega
    rw [decode_surrogates (by omega), hsplit]

theorem scan_number {n : Nat} {tail literal rest : Bytes} {len : Nat} (hn : n < 0x10000)
    (h : scan tail = some (len, literal, rest)) :
    ∃ len', scan (numberEscape n ++ tail) = some (len', numberEscape n ++ literal, rest) := by
  have hhex : ∀ n, n < 16 → hexChar n ≠ quote ∧ hexChar n ≠ 0 ∧ hexChar n ≠ backslash := by decide
  obtain ⟨hq₁, hz₁, hb₁⟩ := hhex (n / 4096) (by omega)
  obtain ⟨hq₂, hz₂, hb₂⟩ := hhex (n / 256 % 16) (by omega)
  obtain ⟨hq₃, hz₃, hb₃⟩ := hhex (n / 16 % 16) (by omega)
  obtain ⟨hq₄, hz₄, hb₄⟩ := hhex (n % 16) (by omega)
  refine ⟨len + 5, ?_⟩
  simp only [numberEscape, List.cons_append, List.nil_append]
  rw [scan_backslash (by decide), scan_cons hq₁ hz₁ hb₁, scan_cons hq₂ hz₂ hb₂, scan_cons hq₃ hz₃ hb₃,
    scan_cons hq₄ hz₄ hb₄, h]
  rfl

theorem scan_ascii {c : Char} {tail literal rest : Bytes} {len : Nat} (h : scan tail = some (len, literal, rest)) :
    ∃ len', scan (asciiEscape c ++ tail) = some (len', asciiEscape c ++ literal, rest) := by
  have hvalid : c.toNat < 0xD800 ∨ 0xDFFF < c.toNat ∧ c.toNat < 0x110000 := c.valid
  unfold asciiEscape
  split_ifs with hprint hshort
  · obtain ⟨hquote, hzero, hback⟩ := printable_byte hprint
    exact ⟨len + 1, by rw [List.singleton_append, scan_cons hquote hzero hback, h]; rfl⟩
  · exact scan_number hshort h
  · obtain ⟨len', hlen'⟩ := @scan_number (0xDC00 + (c.toNat - 0x10000) % 1024) _ _ _ _ (by omega) h
    obtain ⟨len'', hlen''⟩ := @scan_number (0xD800 + (c.toNat - 0x10000) / 1024) _ _ _ _ (by omega) hlen'
    exact ⟨len'', by simpa using hlen''⟩

/-- A text without `NUL` that is written in printable ASCII characters, where all others, the quote and the backslash
have their numbers, is read as the UTF-8 of the characters that it stands for. -/
theorem parseString_ascii (chars : List Char) (hchars : ∀ c ∈ chars, c.toNat ≠ 0) (rest : Bytes) :
    ∃ str : CString, str.bytes = chars.flatMap String.utf8EncodeChar ∧
      parseString (quote :: (chars.flatMap asciiEscape ++ quote :: rest)) = some (str, rest) := by
  have hscan : ∃ len,
      scan (chars.flatMap asciiEscape ++ quote :: rest) = some (len, chars.flatMap asciiEscape, quote :: rest) := by
    clear hchars
    induction chars with
    | nil => exact ⟨0, scan_quote rest⟩
    | cons c chars ih =>
        obtain ⟨len, hlen⟩ := ih
        obtain ⟨len', hlen'⟩ := @scan_ascii c _ _ _ _ hlen
        exact ⟨len', by simpa using hlen'⟩
  have hdecode : decode (chars.flatMap asciiEscape) = some (chars.flatMap String.utf8EncodeChar) := by
    clear hscan
    induction chars with
    | nil => rfl
    | cons c chars ih =>
        rw [List.flatMap_cons, decode_ascii (hchars c List.mem_cons_self),
          ih fun d hd => hchars d (List.mem_cons_of_mem c hd)]
        rfl
  obtain ⟨len, hlen⟩ := hscan
  have hnul := decode_nul hdecode (scan_spec hlen).2.1
  exact ⟨⟨_, hnul⟩, rfl, parseString_eq hlen hdecode hnul⟩

theorem parseString_ascii_umlaut :
    ∃ str : CString, str.bytes = [0xC3, 0xA4] ∧
      parseString (quote :: ([backslash, letterU, 48, 48, 101, 52] ++ [quote])) = some (str, []) := by
  have hchars : ∀ c ∈ ['ä'], c.toNat ≠ 0 := by
    intro c hc
    rw [List.mem_singleton.mp hc]
    decide
  exact parseString_ascii ['ä'] hchars []

end ComputerNetworking.CJson
