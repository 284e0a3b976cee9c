import ComputerNetworking.HashTableRefinement

/-! How full the hash table gets.

The check for a resize stands before an insertion, so that a table may be one element above three quarters
of its size. Its size is only ever doubled: setting a key that is there may double it without adding an
element, and deleting a key never shrinks it. -/

namespace ComputerNetworking.Dht

open Chaining

variable {hash : Bytes → Nat} {tbl : HashTable}

/-- The sizes that a table takes, and the bound on its elements. -/
structure HashTable.Loaded (tbl : HashTable) : Prop where
  size_eq : ∃ k, tbl.size = initialSize * 2 ^ k
  load : 4 * tbl.nElems ≤ 3 * tbl.size + 4

theorem loaded_htCreate : htCreate.Loaded := ⟨⟨0, rfl⟩, by decide⟩

/-- Behind the check an insertion keeps the size and adds one element at most. -/
theorem setValue_grows (hash : Bytes → Nat) (tbl : HashTable) (key value : Bytes) :
    (setValue hash tbl key value).1.size = tbl.size ∧
      (setValue hash tbl key value).1.nElems ≤ tbl.nElems + 1 := by
  rw [setValue]
  cases change HashTableElem.key key ({ · with value := value }) (tbl.elems (getHash hash tbl key)) with
  | some list => exact ⟨rfl, Nat.le_succ _⟩
  | none => exact ⟨rfl, le_rfl⟩

theorem resize_size (hash : Bytes → Nat) (tbl : HashTable) : (resize hash tbl).size = 2 * tbl.size :=
  Nat.mul_comm _ _

/-- `resize` moves every element and adds none. -/
theorem resize_entries (hash : Bytes → Nat) (tbl : HashTable) :
    (entries (resize hash tbl).elems).Perm (entries tbl.elems) :=
  entries_relink tbl.elems

theorem HashTable.Loaded.htSetValue (h : tbl.Loaded) (key value : Bytes) :
    (htSetValue hash tbl key value).1.Loaded := by
  have hload := h.load
  obtain ⟨k, hk⟩ := h.size_eq
  unfold Dht.htSetValue
  split
  · -- twice the size has room for two more elements
    obtain ⟨hsize, hcount⟩ := setValue_grows hash (resize hash tbl) key value
    have hdouble := resize_size hash tbl
    have hsame : (resize hash tbl).nElems = tbl.nElems := rfl
    refine ⟨⟨k + 1, ?_⟩, ?_⟩
    · calc _ = 2 * tbl.size := hsize.trans hdouble
        _ = 2 * (initialSize * 2 ^ k) := congrArg _ hk
        _ = initialSize * 2 ^ (k + 1) := by rw [Nat.mul_left_comm, Nat.pow_succ']
    · have hthree : 3 ≤ tbl.size := by
        rw [hk]
        exact Nat.le_mul_of_pos_right 3 (Nat.two_pow_pos k)
      omega
  · obtain ⟨hsize, hcount⟩ := setValue_grows hash tbl key value
    exact ⟨⟨k, hsize.trans hk⟩, by omega⟩

theorem HashTable.Loaded.htDeleteKey (h : tbl.Loaded) (key : Bytes) :
    (htDeleteKey hash tbl key).1.Loaded := by
  have hload := h.load
  unfold Dht.htDeleteKey
  split
  · refine ⟨h.size_eq, ?_⟩
    change 4 * (tbl.nElems - 1) ≤ 3 * tbl.size + 4
    omega
  · exact h

theorem Call.apply_loaded (h : tbl.Loaded) (call : Call) : (call.apply hash tbl).Loaded := by
  cases call with
  | set key value => exact h.htSetValue key value
  | delete key => exact h.htDeleteKey key
  | get key => exact h

theorem runCalls_loaded (hash : Bytes → Nat) (calls : List Call) : (runCalls hash calls).Loaded := by
  have hfrom {tbl : HashTable} (h : tbl.Loaded) (calls : List Call) :
      (calls.foldl (Call.apply hash) tbl).Loaded := by
    induction calls generalizing tbl with
    | nil => exact h
    | cons call calls ih => exact ih (call.apply_loaded h)
  exact hfrom loaded_htCreate calls

/-- **The invariant of the table.** After any sequence of calls the size is `3 * 2 ^ k`, every element is in
the bucket of its key, no key occurs twice in the table, `n_elems` counts the elements of all chains and is
at most one above three quarters of the size. `resize` doubles the size and keeps the elements. -/
theorem table_invariant (hash : Bytes → Nat) (calls : List Call) :
    let tbl := runCalls hash calls
    (∃ k, tbl.size = 3 * 2 ^ k) ∧
      (∀ i, ∀ e ∈ tbl.elems i, (i : Nat) = hash e.key % tbl.size) ∧
      ((entries tbl.elems).map HashTableElem.key).Nodup ∧
      tbl.nElems = (entries tbl.elems).length ∧
      4 * tbl.nElems ≤ 3 * tbl.size + 4 ∧
      (resize hash tbl).size = 2 * tbl.size ∧
      (entries (resize hash tbl).elems : Multiset HashTableElem) = entries tbl.elems := by
  intro tbl
  obtain ⟨hwf, -⟩ := runCalls_spec hash calls
  have hloaded := runCalls_loaded hash calls
  refine ⟨hloaded.size_eq, fun i e he => ?_, hwf.chained.nodup_entries, ?_, hloaded.load,
    resize_size hash tbl, Multiset.coe_eq_coe.mpr (resize_entries hash tbl)⟩
  · exact congrArg Fin.val (hwf.chained.placed i e he).symm
  · rw [length_entries]
    exact hwf.nElems_eq

end ComputerNetworking.Dht
