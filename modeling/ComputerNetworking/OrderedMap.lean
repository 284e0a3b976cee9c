import Mathlib.Tactic.Linarith

/-! Maps ordered by an integer key, with their lookups after each operation in terms of equality of keys. -/

namespace ComputerNetworking.OrderedMap

variable {α β : Type} (table : Std.TreeMap Int α)

theorem getElem?_insert (k a : Int) (x : α) :
    (table.insert k x)[a]? = if k = a then some x else table[a]? := by
  simp [Std.TreeMap.getElem?_insert]

theorem getElem?_erase (k a : Int) : (table.erase k)[a]? = if k = a then none else table[a]? := by
  simp [Std.TreeMap.getElem?_erase]

theorem getElem?_map (f : Int → α → β) (a : Int) : (table.map f)[a]? = table[a]?.map (f a) := by
  simp

theorem mem_iff {a : Int} : a ∈ table ↔ ∃ x, table[a]? = some x := by
  rw [Std.TreeMap.mem_iff_isSome_getElem?, Option.isSome_iff_exists]

theorem mem_insert {k a : Int} {x : α} : a ∈ table.insert k x ↔ k = a ∨ a ∈ table := by
  simp [Std.TreeMap.mem_insert]

theorem mem_erase {k a : Int} : a ∈ table.erase k ↔ k ≠ a ∧ a ∈ table := by
  simp [Std.TreeMap.mem_erase]

theorem size_insert_of_mem {k : Int} {x : α} (h : k ∈ table) : (table.insert k x).size = table.size := by
  rw [Std.TreeMap.size_insert, if_pos (Std.TreeMap.mem_iff_contains.mp h)]

theorem size_insert_of_notMem {k : Int} {x : α} (h : k ∉ table) :
    (table.insert k x).size = table.size + 1 := by
  rw [Std.TreeMap.size_insert, if_neg (mt Std.TreeMap.mem_iff_contains.mpr h)]

theorem size_erase_of_mem {k : Int} (h : k ∈ table) : (table.erase k).size = table.size - 1 := by
  rw [Std.TreeMap.size_erase, if_pos (Std.TreeMap.mem_iff_contains.mp h)]

/-- The least key is a key, and no greater than any. -/
theorem minKey?_spec {k : Int} (h : table.minKey? = some k) : k ∈ table ∧ ∀ a ∈ table, k ≤ a := by
  obtain ⟨hmem, hall⟩ := Std.TreeMap.minKey?_eq_some_iff_mem_and_forall.mp h
  exact ⟨hmem, fun a ha => Std.isLE_compare.mp (hall a ha)⟩

end ComputerNetworking.OrderedMap
