import Mathlib.Algebra.Order.Group.Nat
import Mathlib.Data.List.TakeDrop

/-! Numbers in memory, the lowest byte first. -/

namespace ComputerNetworking.LittleEndian

/-- The bytes of a number in a field of a given width. -/
def encode : ℕ → ℕ → List UInt8
  | 0, _ => []
  | width + 1, n => UInt8.ofNat n :: encode width (n / 256)

def decode : List UInt8 → ℕ
  | [] => 0
  | b :: bytes => b.toNat + 256 * decode bytes

/-- The field with this index of fields of four bytes. -/
def word (mem : List UInt8) (i : ℕ) : ℕ := decode ((mem.drop (4 * i)).take 4)

/-- How many numbers a field of four bytes has. -/
def wordSize : ℕ := 4294967296

/-- The number in a field as a signed one. -/
def toInt32 (n : ℕ) : ℤ := Int.bmod n wordSize

/-- The field of a signed number. -/
def ofInt32 (n : ℤ) : ℕ := (n % wordSize).toNat

/-- The numbers of the type `int32_t`. -/
def IsInt32 (n : ℤ) : Prop := -2147483648 ≤ n ∧ n < 2147483648

instance (n : ℤ) : Decidable (IsInt32 n) := inferInstanceAs (Decidable (_ ∧ _))

@[simp] theorem length_encode (width n : ℕ) : (encode width n).length = width := by
  induction width generalizing n with
  | zero => rfl
  | succ width ih => rw [encode, List.length_cons, ih]

@[simp] theorem decode_replicate_zero (k : ℕ) : decode (List.replicate k 0) = 0 := by
  induction k with
  | zero => rfl
  | succ k ih => rw [List.replicate_succ, decode, ih]; rfl

theorem decode_append_zeros (bytes : List UInt8) (k : ℕ) :
    decode (bytes ++ List.replicate k 0) = decode bytes := by
  induction bytes with
  | nil => exact decode_replicate_zero k
  | cons b bytes ih => rw [List.cons_append, decode, ih, decode]

/-- The first bytes of a field have the number modulo a power of 256. -/
theorem decode_take_encode (width n k : ℕ) : decode ((encode width n).take k) = n % 256 ^ min k width := by
  induction width generalizing n k with
  | zero => rw [encode, List.take_nil, Nat.min_zero, pow_zero, Nat.mod_one]; rfl
  | succ width ih =>
      cases k with
      | zero => rw [List.take_zero, Nat.zero_min, pow_zero, Nat.mod_one]; rfl
      | succ k =>
          have hbyte : (UInt8.ofNat n).toNat = n % 256 := UInt8.toNat_ofNat'
          calc decode ((encode (width + 1) n).take (k + 1))
              = n % 256 + 256 * decode ((encode width (n / 256)).take k) := by
                rw [encode, List.take_succ_cons, decode, hbyte]
            _ = n % 256 + 256 * (n / 256 % 256 ^ min k width) := by rw [ih]
            _ = n % (256 * 256 ^ min k width) := Nat.mod_mul.symm
            _ = n % 256 ^ min (k + 1) (width + 1) := by rw [Nat.succ_min_succ, pow_succ']

theorem decode_encode (width n : ℕ) : decode (encode width n) = n % 256 ^ width := by
  have htake := decode_take_encode width n width
  rwa [List.take_of_length_le (length_encode width n).le, Nat.min_self] at htake

theorem length_words (numbers : List ℕ) : (numbers.flatMap (encode 4)).length = 4 * numbers.length := by
  induction numbers with
  | nil => rfl
  | cons n numbers ih =>
      rw [List.flatMap_cons, List.length_append, ih, length_encode, List.length_cons]
      omega

theorem word_words {numbers : List ℕ} (rest : List UInt8) {i : ℕ} (hi : i < numbers.length) :
    word (numbers.flatMap (encode 4) ++ rest) i = numbers[i] % wordSize := by
  induction numbers generalizing i with
  | nil => exact absurd hi (Nat.not_lt_zero i)
  | cons n numbers ih =>
      rw [List.flatMap_cons, List.append_assoc]
      cases i with
      | zero =>
          have htake : ((encode 4 n) ++ (numbers.flatMap (encode 4) ++ rest)).take 4 = encode 4 n := by
            rw [List.take_append_of_le_length (length_encode 4 n).ge,
              List.take_of_length_le (length_encode 4 n).le]
          rw [word, Nat.mul_zero, List.drop_zero, htake, decode_encode]
          rfl
      | succ i =>
          have hdrop : ((encode 4 n) ++ (numbers.flatMap (encode 4) ++ rest)).drop (4 * (i + 1)) =
              (numbers.flatMap (encode 4) ++ rest).drop (4 * i) := by
            rw [Nat.mul_succ, Nat.add_comm, ← List.drop_drop,
              List.drop_append_of_le_length (length_encode 4 n).ge,
              List.drop_of_length_le (length_encode 4 n).le, List.nil_append]
          rw [word, hdrop]
          exact ih (Nat.lt_of_succ_lt_succ hi)

/-- The first field as far as it is seen, with zeros behind it. -/
theorem word_seen (n k zeros : ℕ) (rest : List UInt8) :
    word ((encode 4 n ++ rest).take k ++ List.replicate zeros 0) 0 = n % 256 ^ min k 4 := by
  have hfield : ((encode 4 n ++ rest).take k).take 4 = (encode 4 n).take (min k 4) := by
    rw [List.take_take, Nat.min_comm 4 k, List.take_append_of_le_length]
    rw [length_encode]
    exact Nat.min_le_right k 4
  calc word ((encode 4 n ++ rest).take k ++ List.replicate zeros 0) 0
      = decode (((encode 4 n ++ rest).take k).take 4) := by
        rw [word, Nat.mul_zero, List.drop_zero, List.take_append, List.take_replicate, decode_append_zeros]
    _ = decode ((encode 4 n).take (min k 4)) := congrArg decode hfield
    _ = n % 256 ^ min k 4 := by
        rw [decode_take_encode, Nat.min_eq_left (Nat.min_le_right k 4)]

/-- A signed number is read back from its field. -/
theorem toInt32_ofInt32 {n : ℤ} (h : IsInt32 n) : toInt32 (ofInt32 n % wordSize) = n := by
  obtain ⟨hle, hlt⟩ := h
  have hpos : 0 ≤ n % wordSize := Int.emod_nonneg n (by decide)
  have hfield : ((ofInt32 n % wordSize : ℕ) : ℤ) = n % wordSize := by
    rw [ofInt32, Int.natCast_emod, Int.toNat_of_nonneg hpos, Int.emod_emod]
  calc toInt32 (ofInt32 n % wordSize)
      = Int.bmod (n % wordSize) wordSize := congrArg (Int.bmod · wordSize) hfield
    _ = Int.bmod n wordSize := Int.emod_bmod n wordSize
    _ = n := Int.bmod_eq_of_le hle hlt

end ComputerNetworking.LittleEndian
