import Mathlib.Algebra.Order.Ring.Rat
import ComputerNetworking.ShortestPath

/-! Doubles, as far as costs of links need them.

Sums of doubles are rounded, up to infinity. What is used of them is that rounding keeps the order, and that
whole numbers up to `2 ^ 53` are exact. -/

namespace ComputerNetworking

open ShortestPath

/-- The doubles without the NaNs: their order, their sums and the whole numbers among them. -/
class Doubles (R : Type) extends LinearOrder R, OrderTop R, Zero R, Add R where
  whole : ℕ → R
  le_add {d w : R} : 0 ≤ d → 0 ≤ w → d ≤ d + w
  add_le_add {d e w x : R} : 0 ≤ d → d ≤ e → 0 ≤ w → w ≤ x → d + w ≤ e + x
  whole_zero : whole 0 = 0
  whole_nonneg (n : ℕ) : 0 ≤ whole n
  whole_lt {m n : ℕ} : m < n → n ≤ 2 ^ 53 → whole m < whole n
  whole_add {m n : ℕ} : m + n ≤ 2 ^ 53 → whole m + whole n = whole (m + n)
  whole_lt_top : whole (2 ^ 53) < ⊤

theorem Doubles.whole_one_pos {R : Type} [Doubles R] : (0 : R) < Doubles.whole 1 := by
  rw [← Doubles.whole_zero]
  exact Doubles.whole_lt Nat.zero_lt_one (by decide)

/-- A double that is not negative. -/
def Weight (R : Type) [Doubles R] : Type := {w : R // 0 ≤ w}

namespace Weight

variable {R : Type} [Doubles R]

instance : RoundedCosts (Weight R) where
  toLinearOrder := inferInstanceAs (LinearOrder {w : R // 0 ≤ w})
  top := ⟨⊤, le_top⟩
  le_top w := show w.val ≤ ⊤ from le_top
  zero := ⟨0, le_rfl⟩
  add d w := ⟨d.val + w.val, d.property.trans (Doubles.le_add d.property w.property)⟩
  zero_le d := d.property
  zero_lt_top := show (0 : R) < ⊤ from Doubles.whole_one_pos.trans_le le_top
  le_add d w := Doubles.le_add d.property w.property
  add_mono w h := Doubles.add_le_add (Subtype.property _) h w.property le_rfl
  add_mono_right w h := Doubles.add_le_add w.property le_rfl (Subtype.property _) h

/-- A whole number as a weight. -/
def whole (n : ℕ) : Weight R := ⟨Doubles.whole n, Doubles.whole_nonneg n⟩

/-- Weights that are whole numbers add up as exactly as doubles do. -/
theorem wholeBelow : WholeBelow (whole : ℕ → Weight R) (2 ^ 53) where
  zero := Subtype.ext Doubles.whole_zero
  lt := Doubles.whole_lt
  add := fun h => Subtype.ext (Doubles.whole_add h)
  lt_top := Doubles.whole_lt_top

end Weight

/-- Rational numbers and infinity: doubles that never need rounding. -/
instance : Doubles (WithTop ℚ) where
  whole n := ((n : ℚ) : WithTop ℚ)
  le_add {d w} _ hw := by
    calc d = d + 0 := (add_zero d).symm
      _ ≤ d + w := add_le_add_right hw d
  add_le_add _ hde _ hwx := add_le_add hde hwx
  whole_zero := by rw [Nat.cast_zero]; rfl
  whole_nonneg n := WithTop.coe_le_coe.mpr (Nat.cast_nonneg n)
  whole_lt hmn _ := WithTop.coe_lt_coe.mpr (Nat.cast_lt.mpr hmn)
  whole_add {m n} _ := by rw [Nat.cast_add, WithTop.coe_add]
  whole_lt_top := WithTop.coe_lt_top _

end ComputerNetworking
