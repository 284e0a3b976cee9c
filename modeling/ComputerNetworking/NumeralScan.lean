import Mathlib.Data.Option.Basic
import Mathlib.Data.Nat.Notation

/-! Numbers at the front of a text, as `sscanf` finds them with `%d`.

White space is skipped, then an optional sign and as many digits as there are make the number. A text
without a digit there has no number; what follows the digits is not looked at. -/

namespace ComputerNetworking.NumeralScan

/-- `isspace` in the C locale. -/
def isSpace (c : Char) : Bool :=
  c = ' ' || (9 ≤ c.toNat && c.toNat ≤ 13)

/-- The number that the digits at the front of a text stand for. -/
def scanDigits (cs : List Char) : Option Nat :=
  match cs.takeWhile Char.isDigit with
  | [] => none
  | digits => some (Nat.ofDigitChars 10 digits 0)

def scanInt (cs : List Char) : Option Int :=
  match cs.dropWhile isSpace with
  | '-' :: rest => (scanDigits rest).map fun n => -(n : Int)
  | '+' :: rest => (scanDigits rest).map Int.ofNat
  | rest => (scanDigits rest).map Int.ofNat

theorem not_isSpace_of_isDigit {c : Char} (h : c.isDigit = true) : isSpace c = false := by
  rw [Char.isDigit_iff_toNat, show '0'.toNat = 48 from rfl, show '9'.toNat = 57 from rfl] at h
  have hne : c ≠ ' ' := by
    intro hc
    rw [hc] at h
    exact absurd h.1 (by decide)
  simp only [isSpace, hne, decide_false, Bool.false_or, Bool.and_eq_false_iff, decide_eq_false_iff_not]
  omega

section Numeral

variable (n : Nat) {rest : List Char}

/-- The digits of a number and what follows them. -/
theorem scanDigits_append (h : ∀ c ∈ rest.head?, c.isDigit = false) :
    scanDigits (Nat.toDigits 10 n ++ rest) = some n := by
  have hdigits : ∀ c ∈ Nat.toDigits 10 n, c.isDigit = true :=
    fun c hc => Nat.isDigit_of_mem_toDigits (by decide) (by decide) hc
  have hrest : rest.takeWhile Char.isDigit = [] := by
    cases rest with
    | nil => rfl
    | cons c rest => rw [List.takeWhile_cons, h c rfl]; rfl
  have htake : (Nat.toDigits 10 n ++ rest).takeWhile Char.isDigit = Nat.toDigits 10 n := by
    rw [List.takeWhile_append_of_pos hdigits, hrest, List.append_nil]
  have hvalue := @Nat.ofDigitChars_ten_toDigits n
  have hne := @Nat.toDigits_ne_nil n 10
  rw [scanDigits, htake]
  cases hcs : Nat.toDigits 10 n with
  | nil => exact absurd hcs hne
  | cons c cs => rw [← hvalue, hcs]

/-- A printed number is found again, whatever follows it. -/
theorem scanInt_append (h : ∀ c ∈ rest.head?, c.isDigit = false) :
    scanInt ((toString n).toList ++ rest) = some (n : Int) := by
  have hscan := scanDigits_append n h
  have hdigits : ∀ c ∈ Nat.toDigits 10 n, c.isDigit = true :=
    fun c hc => Nat.isDigit_of_mem_toDigits (by decide) (by decide) hc
  have htext : (toString n).toList = Nat.toDigits 10 n := Nat.toList_repr
  rw [htext]
  cases hcs : Nat.toDigits 10 n with
  | nil => exact absurd hcs Nat.toDigits_ne_nil
  | cons c cs =>
      rw [hcs] at hscan hdigits
      have hc := hdigits c List.mem_cons_self
      have hdrop : (c :: cs ++ rest).dropWhile isSpace = c :: cs ++ rest := by
        rw [List.cons_append, List.dropWhile_cons, not_isSpace_of_isDigit hc]
        rfl
      rw [scanInt, hdrop]
      -- a digit is no sign
      split
      · rename_i heq
        cases heq
        exact absurd hc (by decide)
      · rename_i heq
        cases heq
        exact absurd hc (by decide)
      · rw [hscan]
        rfl

theorem scanInt_toString : scanInt (toString n).toList = some (n : Int) := by
  calc
    scanInt (toString n).toList = scanInt ((toString n).toList ++ []) := by rw [List.append_nil]
    _ = some (n : Int) := scanInt_append n (by simp)

end Numeral

/-- What follows the digits is not looked at, and a text may have no number. -/
example : scanInt " +07.mp4".toList = some 7 ∧ scanInt "-x".toList = none := by decide

end ComputerNetworking.NumeralScan
