import Mathlib.Data.Set.Card
import Mathlib.Algebra.BigOperators.Fin

/-! Hash tables with chains: an array of lists of keyed elements.

`slot` gives every key its index in the array. A table is `Chained` when every element is in the
chain of its key and no chain holds a key twice; looking a key up in its chain then decides whether
any chain holds it. An array of chains is a function of its index, so that no index is out of
range. -/

namespace ComputerNetworking.Chaining

variable {ε α : Type*} (key : ε → α)

variable {n m : ℕ} (slot : α → Fin n)

/-- Every element is in the chain of its key, and no chain holds a key twice. -/
structure Chained (table : Fin n → List ε) : Prop where
  placed : ∀ i, ∀ e ∈ table i, slot (key e) = i
  nodup : ∀ i, ((table i).map key).Nodup

/-- The number of elements in all chains. -/
def count (table : Fin n → List ε) : ℕ := ∑ i, (table i).length

/-- The table with an element put at the head of its chain. -/
def link (table : Fin n → List ε) (e : ε) : Fin n → List ε :=
  Function.update table (slot (key e)) (e :: table (slot (key e)))

/-- The elements of a table linked into an empty one, chain after chain. -/
def relink (table : Fin m → List ε) : Fin n → List ε :=
  (List.finRange m).foldl (fun new i => (table i).foldl (link key slot) new) fun _ => []

/-- All elements, chain after chain. -/
def entries (table : Fin n → List ε) : List ε := (List.finRange n).flatMap table

theorem chained_empty : Chained key slot fun _ => [] :=
  ⟨fun _ _ he => by simp at he, fun _ => List.nodup_nil⟩

section Table

variable {key slot} {table : Fin n → List ε}

/-- A chain may be replaced by another one for its index. -/
theorem Chained.set (h : Chained key slot table) {i : Fin n} {chain : List ε}
    (hplaced : ∀ e ∈ chain, slot (key e) = i) (hnodup : (chain.map key).Nodup) :
    Chained key slot (Function.update table i chain) := by
  constructor
  · intro j e he
    by_cases hj : j = i
    · subst hj
      rw [Function.update_self] at he
      exact hplaced e he
    · rw [Function.update_of_ne hj] at he
      exact h.placed j e he
  · intro j
    by_cases hj : j = i
    · subst hj
      rwa [Function.update_self]
    · rw [Function.update_of_ne hj]
      exact h.nodup j

theorem count_set (table : Fin n → List ε) (i : Fin n) (chain : List ε) :
    count (Function.update table i chain) + (table i).length = count table + chain.length := by
  have h := Finset.add_sum_erase Finset.univ (fun j => (table j).length) (Finset.mem_univ i)
  have h' := Finset.add_sum_erase Finset.univ
    (fun j => (Function.update table i chain j).length) (Finset.mem_univ i)
  have hrest : ∀ j ∈ Finset.univ.erase i,
      (Function.update table i chain j).length = (table j).length := fun j hj => by
    rw [Function.update_of_ne (Finset.ne_of_mem_erase hj)]
  rw [Finset.sum_congr rfl hrest, Function.update_self] at h'
  rw [count, count]
  omega

theorem count_link (e : ε) : count (link key slot table e) = count table + 1 := by
  have h := count_set table (slot (key e)) (e :: table (slot (key e)))
  rw [List.length_cons] at h
  unfold link
  omega

theorem mem_entries {e : ε} : e ∈ entries table ↔ ∃ i, e ∈ table i := by
  simp [entries]

/-- Linking adds one element to all elements. -/
theorem entries_link (e : ε) : (entries (link key slot table e)).Perm (e :: entries table) := by
  obtain ⟨before, after, hrange⟩ := List.append_of_mem (List.mem_finRange (slot (key e)))
  have hnodup := List.nodup_finRange n
  rw [hrange] at hnodup
  have hother {indices : List (Fin n)} (h : slot (key e) ∉ indices) :
      indices.flatMap (link key slot table e) = indices.flatMap table := by
    rw [List.flatMap_def, List.flatMap_def]
    refine congrArg List.flatten (List.map_congr_left fun i hi => Function.update_of_ne ?_ _ _)
    rintro rfl
    exact h hi
  have hbefore := hother fun hmem => List.disjoint_of_nodup_append hnodup hmem List.mem_cons_self
  have hafter := hother (List.nodup_cons.mp hnodup.of_append_right).1
  rw [entries, entries, hrange, List.flatMap_append, List.flatMap_append, List.flatMap_cons,
    List.flatMap_cons, hbefore, hafter, link, Function.update_self]
  exact List.perm_middle

theorem entries_foldl_link (elems : List ε) (table : Fin n → List ε) :
    (entries (elems.foldl (link key slot) table)).Perm (elems ++ entries table) := by
  induction elems generalizing table with
  | nil => exact .refl _
  | cons e elems ih =>
      refine (ih (link key slot table e)).trans ?_
      exact ((entries_link e).append_left elems).trans List.perm_middle

/-- The elements are linked one after the other. -/
theorem relink_eq_foldl (table : Fin m → List ε) :
    relink key slot table = (entries table).foldl (link key slot) fun _ => [] := by
  rw [relink, entries, List.foldl_flatMap]

/-- Moving all elements to an array of another size keeps the multiset of the elements. -/
theorem entries_relink (table : Fin m → List ε) :
    (entries (relink key slot table)).Perm (entries table) := by
  have hempty : entries (fun _ : Fin n => ([] : List ε)) = [] := by simp [entries]
  rw [relink_eq_foldl]
  simpa only [hempty, List.append_nil] using entries_foldl_link (entries table) fun _ : Fin n => []

theorem length_entries (table : Fin n → List ε) : (entries table).length = count table := by
  rw [entries, List.length_flatMap, count, Fin.sum_univ_def]

theorem Chained.nodup_entries (h : Chained key slot table) : ((entries table).map key).Nodup := by
  rw [entries, List.map_flatMap, List.nodup_flatMap]
  refine ⟨fun i _ => h.nodup i, ?_⟩
  refine (List.nodup_finRange n).imp fun {i j} hij k hi hj => hij ?_
  obtain ⟨d, hd, rfl⟩ := List.mem_map.mp hi
  obtain ⟨e, he, heq⟩ := List.mem_map.mp hj
  rw [← h.placed i d hd, ← h.placed j e he, heq]

end Table

variable [DecidableEq α]

/-- The first element of a chain with a key. -/
def find (k : α) : List ε → Option ε
  | [] => none
  | e :: chain => if key e = k then some e else find k chain

/-- The chain with the first element with a key changed, if there is one. -/
def change (k : α) (f : ε → ε) : List ε → Option (List ε)
  | [] => none
  | e :: chain => if key e = k then some (f e :: chain) else (change k f chain).map (e :: ·)

/-- The chain without the first element with a key, if there is one. -/
def unlink (k : α) : List ε → Option (List ε)
  | [] => none
  | e :: chain => if key e = k then some chain else (unlink k chain).map (e :: ·)

/-- What the chain of a key holds for it. -/
def lookup (table : Fin n → List ε) (k : α) : Option ε := find key k (table (slot k))

section Chain

variable {key} {k k' : α} {e : ε} {chain chain' : List ε}

theorem find_eq_none_iff : find key k chain = none ↔ ∀ e ∈ chain, key e ≠ k := by
  induction chain with
  | nil => simp [find]
  | cons e chain ih =>
      rw [find, List.forall_mem_cons]
      split
      · simp_all
      · simp_all

theorem find_some (h : find key k chain = some e) : e ∈ chain ∧ key e = k := by
  induction chain with
  | nil => cases h
  | cons d chain ih =>
      unfold find at h
      split at h
      · rename_i hkey
        cases h
        exact ⟨List.mem_cons_self, hkey⟩
      · exact ⟨List.mem_cons_of_mem _ (ih h).1, (ih h).2⟩

theorem change_eq_none_iff {f : ε → ε} : change key k f chain = none ↔ find key k chain = none := by
  induction chain with
  | nil => simp [change, find]
  | cons e chain ih =>
      rw [change, find]
      split
      · simp
      · rw [Option.map_eq_none_iff, ih]

theorem change_some {f : ε → ε} (h : change key k f chain = some chain')
    (hf : ∀ e, key (f e) = key e) :
    chain'.map key = chain.map key ∧
      ∀ k', find key k' chain' = if k' = k then (find key k chain).map f else find key k' chain := by
  induction chain generalizing chain' with
  | nil => cases h
  | cons e chain ih =>
      unfold change at h
      split at h
      · rename_i hkey
        cases h
        refine ⟨by rw [List.map_cons, List.map_cons, hf], fun k' => ?_⟩
        subst hkey
        simp only [find, hf]
        by_cases hk : k' = key e
        · simp [hk]
        · simp [hk, Ne.symm hk]
      · rename_i hkey
        obtain ⟨rest, hrest, rfl⟩ := Option.map_eq_some_iff.mp h
        obtain ⟨hmap, hfind⟩ := ih hrest
        refine ⟨by rw [List.map_cons, List.map_cons, hmap], fun k' => ?_⟩
        simp only [find, hfind, hkey, if_false]
        by_cases hk : k' = k
        · subst hk
          simp [hkey]
        · simp [hk]

theorem unlink_eq_none_iff : unlink key k chain = none ↔ find key k chain = none := by
  induction chain with
  | nil => simp [unlink, find]
  | cons e chain ih =>
      rw [unlink, find]
      split
      · simp
      · rw [Option.map_eq_none_iff, ih]

theorem unlink_some (hnodup : (chain.map key).Nodup) (h : unlink key k chain = some chain') :
    chain'.Sublist chain ∧ chain'.length + 1 = chain.length ∧
      ∀ k', find key k' chain' = if k' = k then none else find key k' chain := by
  induction chain generalizing chain' with
  | nil => cases h
  | cons e chain ih =>
      rw [List.map_cons, List.nodup_cons] at hnodup
      unfold unlink at h
      split at h
      · rename_i hkey
        cases h
        refine ⟨List.sublist_cons_self e _, rfl, fun k' => ?_⟩
        subst hkey
        by_cases hk : k' = key e
        · rw [if_pos hk, find_eq_none_iff]
          intro d hd heq
          exact hnodup.1 (List.mem_map.mpr ⟨d, hd, heq.trans hk⟩)
        · rw [if_neg hk, find, if_neg (Ne.symm hk)]
      · rename_i hkey
        obtain ⟨rest, hrest, rfl⟩ := Option.map_eq_some_iff.mp h
        obtain ⟨hsub, hlength, hfind⟩ := ih hnodup.2 hrest
        refine ⟨hsub.cons_cons e, by rw [List.length_cons, List.length_cons, hlength], fun k' => ?_⟩
        simp only [find, hfind]
        by_cases hk : k' = k
        · subst hk
          simp [hkey]
        · simp [hk]

end Chain

section Lookup

variable {key slot} {table : Fin n → List ε}

theorem lookup_empty (k : α) : lookup key slot (fun _ => ([] : List ε)) k = none := rfl

theorem lookup_set (i : Fin n) (chain : List ε) (k : α) :
    lookup key slot (Function.update table i chain) k =
      if slot k = i then find key k chain else lookup key slot table k := by
  rw [lookup, lookup, Function.update_apply]
  split <;> rfl

theorem lookup_link (e : ε) (k : α) :
    lookup key slot (link key slot table e) k =
      if key e = k then some e else lookup key slot table k := by
  rw [link, lookup_set]
  by_cases hslot : slot k = slot (key e)
  · rw [if_pos hslot, find, lookup, hslot]
  · rw [if_neg hslot, if_neg fun heq => hslot (congrArg slot heq).symm]

theorem Chained.link (h : Chained key slot table) {e : ε}
    (hnew : lookup key slot table (key e) = none) : Chained key slot (link key slot table e) := by
  rw [lookup, find_eq_none_iff] at hnew
  refine h.set (List.forall_mem_cons.mpr ⟨rfl, h.placed _⟩) ?_
  rw [List.map_cons, List.nodup_cons]
  refine ⟨fun hmem => ?_, h.nodup _⟩
  obtain ⟨d, hd, heq⟩ := List.mem_map.mp hmem
  exact hnew d hd heq

/-- Linking a list of new elements adds exactly these. -/
theorem foldl_link (h : Chained key slot table) {elems : List ε} (hnodup : (elems.map key).Nodup)
    (hnew : ∀ e ∈ elems, lookup key slot table (key e) = none) :
    Chained key slot (elems.foldl (link key slot) table) ∧
      (∀ k, lookup key slot (elems.foldl (link key slot) table) k =
        (find key k elems).or (lookup key slot table k)) ∧
      count (elems.foldl (link key slot) table) = count table + elems.length := by
  induction elems generalizing table with
  | nil => exact ⟨h, fun k => rfl, rfl⟩
  | cons e elems ih =>
      rw [List.map_cons, List.nodup_cons] at hnodup
      rw [List.forall_mem_cons] at hnew
      have hfresh : ∀ d ∈ elems, lookup key slot (link key slot table e) (key d) = none := by
        intro d hd
        rw [lookup_link, if_neg fun heq => hnodup.1 (List.mem_map.mpr ⟨d, hd, heq.symm⟩)]
        exact hnew.2 d hd
      obtain ⟨hchained, hlookup, hcount⟩ := ih (h.link hnew.1) hnodup.2 hfresh
      refine ⟨hchained, fun k => ?_, ?_⟩
      · rw [List.foldl_cons, hlookup, lookup_link, find]
        split
        · rename_i hkey
          have hnone : find key k elems = none := find_eq_none_iff.mpr fun d hd heq =>
            hnodup.1 (List.mem_map.mpr ⟨d, hd, heq.trans hkey.symm⟩)
          rw [hnone]
          rfl
        · rfl
      · rw [List.foldl_cons, hcount, count_link, List.length_cons]
        omega

/-- A key is found in its chain exactly when it is found among all elements. -/
theorem Chained.find_entries (h : Chained key slot table) (k : α) :
    find key k (entries table) = lookup key slot table k := by
  cases hfind : lookup key slot table k with
  | none =>
      rw [lookup, find_eq_none_iff] at hfind
      rw [find_eq_none_iff]
      intro e he heq
      obtain ⟨i, hi⟩ := mem_entries.mp he
      rw [← h.placed i e hi, heq] at hi
      exact hfind e hi heq
  | some e =>
      obtain ⟨hmem, hkey⟩ := find_some hfind
      have hall := mem_entries.mpr ⟨_, hmem⟩
      cases hentry : find key k (entries table) with
      | none => exact absurd hkey (find_eq_none_iff.mp hentry e hall)
      | some d =>
          obtain ⟨hd, hdkey⟩ := find_some hentry
          rw [List.inj_on_of_nodup_map h.nodup_entries hd hall (hdkey.trans hkey.symm)]

/-- The elements are as many as the keys that are found. -/
theorem Chained.ncard_keys (h : Chained key slot table) :
    {k | lookup key slot table k ≠ none}.ncard = count table := by
  have hset : {k | lookup key slot table k ≠ none} = ((entries table).map key).toFinset := by
    ext k
    rw [Set.mem_ofPred_eq, ← h.find_entries, Ne, find_eq_none_iff]
    simp
  rw [hset, Set.ncard_coe_finset, List.toFinset_card_of_nodup h.nodup_entries, List.length_map,
    length_entries]

/-- Moving all elements to an array of another size keeps every key. -/
theorem Chained.relink (h : Chained key slot table) (slot' : α → Fin m) :
    Chained key slot' (relink key slot' table) ∧
      (∀ k, lookup key slot' (relink key slot' table) k = lookup key slot table k) ∧
      count (Chaining.relink key slot' table) = count table := by
  obtain ⟨hchained, hlookup, hcount⟩ := foldl_link (chained_empty key slot')
    h.nodup_entries fun _ _ => lookup_empty _
  rw [relink_eq_foldl]
  refine ⟨hchained, fun k => ?_, ?_⟩
  · rw [hlookup, lookup_empty, Option.or_none, h.find_entries]
  · rw [hcount, length_entries]
    simp [count]

end Lookup

end ComputerNetworking.Chaining
