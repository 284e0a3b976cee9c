import Mathlib.Data.Nat.ModEq
import Mathlib.Data.List.Nodup

/-! Items laid out around a circular array.

The items of a queue lie in consecutive cells of an array, from the cell `first` on and past the
end to the front. The lemmas say what appending, removing and replacing an item do to the layout. -/

namespace ComputerNetworking.RingLayout

variable {α : Type*}

/-- Distances below the size of the array give different cells. -/
theorem index_inj {size first i j : Nat} (hi : i < size) (hj : j < size)
    (h : (first + i) % size = (first + j) % size) : i = j := by
  have hmod : i ≡ j [MOD size] := Nat.ModEq.add_left_cancel' first h
  have := Nat.ModEq.eq_of_lt_of_lt hmod hi hj
  exact this

/-- The cell `j` places after the cell `i` places after `first`. -/
theorem index_add (size first i j : Nat) :
    ((first + i) % size + j) % size = (first + (i + j)) % size := by
  rw [Nat.mod_add_mod, Nat.add_assoc]

/-- Going once around the array meets no cell twice. -/
theorem indices_nodup {size n : Nat} (h : n ≤ size) (first : Nat) :
    ((List.range n).map fun j => (first + j) % size).Nodup := by
  refine List.Nodup.map_on (fun i hi j hj hcell => ?_) List.nodup_range
  rw [List.mem_range] at hi hj
  exact index_inj (hi.trans_le h) (hj.trans_le h) hcell

/-- The items lie one after the other around the array, from the cell `first` on. -/
structure Holds (cells : List α) (first : Nat) (items : List α) : Prop where
  fits : items.length ≤ cells.length
  item : ∀ j, j < items.length → cells[(first + j) % cells.length]? = items[j]?

namespace Holds

variable {cells items : List α} {first : Nat}

theorem nil (cells : List α) (first : Nat) : Holds cells first [] :=
  ⟨Nat.zero_le _, fun j hj => absurd hj (Nat.not_lt_zero j)⟩

/-- Writing the first free cell appends an item. -/
theorem push (h : Holds cells first items) (hroom : items.length < cells.length) (x : α) :
    Holds (cells.set ((first + items.length) % cells.length) x) first (items ++ [x]) := by
  have hpos : 0 < cells.length := by omega
  refine ⟨by simp only [List.length_append, List.length_singleton, List.length_set]; omega,
    fun j hj => ?_⟩
  rw [List.length_append, List.length_singleton] at hj
  rw [List.length_set]
  by_cases heq : j = items.length
  · subst heq
    rw [List.getElem?_set_self (Nat.mod_lt _ hpos), List.getElem?_concat_length]
  · have hlt : j < items.length := by omega
    have hne : (first + items.length) % cells.length ≠ (first + j) % cells.length := by
      intro hcell
      exact heq (index_inj hroom (by omega) hcell).symm
    rw [List.getElem?_set_ne hne, h.item j hlt, List.getElem?_append_left hlt]

/-- Moving `first` on by one cell, whatever is left behind in the old one, drops the oldest
item. -/
theorem pop {x y : α} (h : Holds cells first (x :: items)) :
    Holds (cells.set (first % cells.length) y) ((first + 1) % cells.length) items := by
  have hfits := h.fits
  rw [List.length_cons] at hfits
  refine ⟨by rw [List.length_set]; omega, fun j hj => ?_⟩
  rw [List.length_set, index_add]
  have hne : first % cells.length ≠ (first + (1 + j)) % cells.length := by
    intro hcell
    have := index_inj (i := 0) (j := 1 + j) (by omega) (by omega) hcell
    omega
  rw [List.getElem?_set_ne hne, h.item (1 + j) (by rw [List.length_cons]; omega),
    Nat.add_comm, List.getElem?_cons_succ]

/-- Overwriting the cell of an item replaces that item. -/
theorem set (h : Holds cells first items) {j : Nat} (hj : j < items.length) (x : α) :
    Holds (cells.set ((first + j) % cells.length) x) first (items.set j x) := by
  have hfits := h.fits
  refine ⟨by simpa using hfits, fun i hi => ?_⟩
  rw [List.length_set] at hi ⊢
  by_cases heq : i = j
  · subst heq
    rw [List.getElem?_set_self (Nat.mod_lt _ (by omega)), List.getElem?_set_self hi]
  · have hne : (first + j) % cells.length ≠ (first + i) % cells.length := by
      intro hcell
      exact heq (index_inj (by omega) (by omega) hcell).symm
    rw [List.getElem?_set_ne hne, h.item i hi, List.getElem?_set_ne (Ne.symm heq)]

/-- The oldest item is in the cell `first`. -/
theorem head {x : α} (h : Holds cells first (x :: items)) :
    cells[first % cells.length]? = some x := by
  simpa using h.item 0 (by simp)

end Holds

end ComputerNetworking.RingLayout
