import ComputerNetworking.HashTableModel

/-! The hash table refines a finite map, whatever the hash function.

`bindings` is the map that a table stores. Each call keeps the table well formed and changes the map
at its own key only; `mapOf` does the same to a map without a table, and `LastSet` says what it maps
a key to in terms of the calls made. -/

namespace ComputerNetworking.Dht

open Chaining

variable (hash : Bytes → Nat)

/-- The chains are in order and `n_elems` counts their elements. -/
structure HashTable.Wf (tbl : HashTable) : Prop where
  chained : Chained HashTableElem.key (getHash hash tbl) tbl.elems
  nElems_eq : tbl.nElems = count tbl.elems

/-- The map that a table stores. -/
def HashTable.bindings (tbl : HashTable) (key : Bytes) : Option Bytes :=
  (lookup HashTableElem.key (getHash hash tbl) tbl.elems key).map HashTableElem.value

theorem htGetValue_eq (tbl : HashTable) (key : Bytes) :
    htGetValue hash tbl key =
      match tbl.bindings hash key with
      | some value => (0, some value, value.length)
      | none => (-1, none, 0) := by
  rw [htGetValue, HashTable.bindings, lookup]
  cases find HashTableElem.key key (tbl.elems (getHash hash tbl key)) <;> rfl

theorem wf_htCreate : htCreate.Wf hash :=
  ⟨chained_empty _ _, by simp [htCreate, count]⟩

section Calls

variable {hash} {tbl : HashTable}

/-- `n_elems` is the number of keys that the map binds. -/
theorem HashTable.Wf.ncard_bindings (h : tbl.Wf hash) :
    tbl.nElems = {key | tbl.bindings hash key ≠ none}.ncard := by
  rw [h.nElems_eq, ← h.chained.ncard_keys]
  congr 1
  ext key
  simp [HashTable.bindings]

theorem HashTable.Wf.resize (h : tbl.Wf hash) :
    (resize hash tbl).Wf hash ∧ (resize hash tbl).bindings hash = tbl.bindings hash := by
  obtain ⟨hchained, hlookup, hcount⟩ := h.chained.relink (getHash hash tbl.doubled)
  refine ⟨⟨hchained, h.nElems_eq.trans hcount.symm⟩, funext fun key => ?_⟩
  exact congrArg (Option.map HashTableElem.value) (hlookup key)

/-- A chain that differs at one key changes the map at that key. -/
theorem bindings_setList (tbl : HashTable) {key : Bytes} {list : List HashTableElem}
    (new : Option HashTableElem) (hfind : ∀ key', find HashTableElem.key key' list =
      if key' = key then new else find HashTableElem.key key' (tbl.elems (getHash hash tbl key))) :
    (setList hash tbl key list).bindings hash =
      Function.update (tbl.bindings hash) key (new.map HashTableElem.value) := by
  funext key'
  have hlookup : lookup HashTableElem.key (getHash hash tbl)
      (Function.update tbl.elems (getHash hash tbl key) list) key' =
      if key' = key then new else lookup HashTableElem.key (getHash hash tbl) tbl.elems key' := by
    rw [lookup_set, hfind, lookup]
    by_cases hkey : key' = key
    · rw [if_pos (congrArg _ hkey), if_pos hkey, if_pos hkey]
    · rw [if_neg hkey, if_neg hkey]
      split
      · rename_i hslot
        rw [hslot]
      · rfl
  rw [Function.update_apply, HashTable.bindings]
  refine (congrArg (Option.map HashTableElem.value) hlookup).trans ?_
  rw [apply_ite (Option.map HashTableElem.value)]
  rfl

theorem setValue_spec (h : tbl.Wf hash) (key value : Bytes) :
    (setValue hash tbl key value).1.Wf hash ∧
      (setValue hash tbl key value).1.bindings hash =
        Function.update (tbl.bindings hash) key (some value) ∧
      (setValue hash tbl key value).2 = 0 := by
  have hcount := count_set tbl.elems (getHash hash tbl key)
  have hplaced := h.chained.placed (getHash hash tbl key)
  have hnodup := h.chained.nodup (getHash hash tbl key)
  rw [setValue]
  cases hchange : change HashTableElem.key key ({ · with value := value })
      (tbl.elems (getHash hash tbl key)) with
  | some list =>
      obtain ⟨hkeys, hfind⟩ := change_some hchange fun _ => rfl
      have hlength : list.length = (tbl.elems (getHash hash tbl key)).length := by
        simpa using congrArg List.length hkeys
      refine ⟨⟨h.chained.set (fun e he => ?_) (hkeys ▸ hnodup), ?_⟩, ?_, rfl⟩
      · have hmem : e.key ∈ (tbl.elems (getHash hash tbl key)).map HashTableElem.key :=
          hkeys ▸ List.mem_map_of_mem he
        obtain ⟨d, hd, heq⟩ := List.mem_map.mp hmem
        rw [← heq]
        exact hplaced d hd
      · have hthis := hcount list
        have hn := h.nElems_eq
        change tbl.nElems = count (Function.update tbl.elems (getHash hash tbl key) list)
        omega
      · refine (bindings_setList tbl _ hfind).trans (congrArg _ ?_)
        cases hold : find HashTableElem.key key (tbl.elems (getHash hash tbl key)) with
        | none =>
            rw [change_eq_none_iff.mpr hold] at hchange
            cases hchange
        | some e => rfl
  | none =>
      rw [change_eq_none_iff, find_eq_none_iff] at hchange
      refine ⟨⟨h.chained.set (List.forall_mem_cons.mpr ⟨rfl, hplaced⟩) ?_, ?_⟩, ?_, rfl⟩
      · rw [List.map_cons, List.nodup_cons]
        refine ⟨fun hmem => ?_, hnodup⟩
        obtain ⟨d, hd, heq⟩ := List.mem_map.mp hmem
        exact hchange d hd heq
      · have hthis := hcount (⟨key, value⟩ :: tbl.elems (getHash hash tbl key))
        have hn := h.nElems_eq
        rw [List.length_cons] at hthis
        change tbl.nElems + 1 = count (Function.update tbl.elems (getHash hash tbl key) _)
        omega
      · refine bindings_setList tbl (some ⟨key, value⟩) fun key' => ?_
        rw [find]
        by_cases hkey : key' = key
        · rw [if_pos hkey, if_pos hkey.symm]
        · rw [if_neg hkey, if_neg (Ne.symm hkey)]

theorem htSetValue_spec (h : tbl.Wf hash) (key value : Bytes) :
    (htSetValue hash tbl key value).1.Wf hash ∧
      (htSetValue hash tbl key value).1.bindings hash =
        Function.update (tbl.bindings hash) key (some value) ∧
      (htSetValue hash tbl key value).2 = 0 := by
  unfold htSetValue
  split
  · rw [← h.resize.2]
    exact setValue_spec h.resize.1 key value
  · exact setValue_spec h key value

theorem htDeleteKey_spec (h : tbl.Wf hash) (key : Bytes) :
    (htDeleteKey hash tbl key).1.Wf hash ∧
      (htDeleteKey hash tbl key).1.bindings hash =
        Function.update (tbl.bindings hash) key none ∧
      (htDeleteKey hash tbl key).2 = if tbl.bindings hash key = none then -1 else 0 := by
  have hplaced := h.chained.placed (getHash hash tbl key)
  have hnodup := h.chained.nodup (getHash hash tbl key)
  rw [htDeleteKey, HashTable.bindings, lookup]
  cases hunlink : unlink HashTableElem.key key (tbl.elems (getHash hash tbl key)) with
  | some list =>
      obtain ⟨hsub, hlength, hfind⟩ := unlink_some hnodup hunlink
      refine ⟨⟨h.chained.set (fun e he => hplaced e (hsub.subset he)) ?_, ?_⟩,
        bindings_setList tbl none hfind, ?_⟩
      · exact (hsub.map _).nodup hnodup
      · have hcount := count_set tbl.elems (getHash hash tbl key) list
        have hn := h.nElems_eq
        change tbl.nElems - 1 = count (Function.update tbl.elems (getHash hash tbl key) list)
        omega
      · rw [if_neg]
        rw [Option.map_eq_none_iff, ← unlink_eq_none_iff, hunlink]
        exact Option.some_ne_none list
  | none =>
      have hnone := unlink_eq_none_iff.mp hunlink
      refine ⟨h, ?_, ?_⟩
      · have hbinding : tbl.bindings hash key = none := by
          rw [HashTable.bindings, lookup, hnone, Option.map_none]
        rw [← hbinding, Function.update_eq_self]
      · rw [hnone, Option.map_none, if_pos rfl]

end Calls

/-- What a call does to a map. -/
def Call.onMap (map : Bytes → Option Bytes) : Call → Bytes → Option Bytes
  | .set key value => Function.update map key (some value)
  | .delete key => Function.update map key none
  | .get _ => map

/-- The map after a sequence of calls. -/
def mapOf (calls : List Call) : Bytes → Option Bytes :=
  calls.foldl Call.onMap fun _ => none

/-- The call sets or deletes the key. -/
def Call.Writes (key : Bytes) : Call → Prop
  | .set key' _ => key' = key
  | .delete key' => key' = key
  | .get _ => False

/-- The calls set the key to the value and neither set nor delete it afterwards. -/
def LastSet (calls : List Call) (key value : Bytes) : Prop :=
  ∃ earlier later, calls = earlier ++ .set key value :: later ∧ ∀ call ∈ later, ¬call.Writes key

section Sequences

variable {hash} {tbl : HashTable}

/-- A call keeps the table well formed and does to its map what it does to any. -/
theorem Call.apply_spec (h : tbl.Wf hash) (call : Call) :
    (call.apply hash tbl).Wf hash ∧
      (call.apply hash tbl).bindings hash = call.onMap (tbl.bindings hash) := by
  cases call with
  | set key value => exact ⟨(htSetValue_spec h key value).1, (htSetValue_spec h key value).2.1⟩
  | delete key => exact ⟨(htDeleteKey_spec h key).1, (htDeleteKey_spec h key).2.1⟩
  | get key => exact ⟨h, rfl⟩

/-- What calls do at a key depends on the map at that key only. -/
theorem foldl_onMap_congr {map map' : Bytes → Option Bytes} {key : Bytes} (h : map key = map' key)
    (calls : List Call) : calls.foldl Call.onMap map key = calls.foldl Call.onMap map' key := by
  induction calls generalizing map map' with
  | nil => exact h
  | cons call calls ih =>
      apply ih
      cases call with
      | set key' value => rw [Call.onMap, Call.onMap, Function.update_apply, Function.update_apply, h]
      | delete key' => rw [Call.onMap, Call.onMap, Function.update_apply, Function.update_apply, h]
      | get key' => exact h

/-- A call leaves the other keys of a map alone. -/
theorem Call.onMap_of_not_writes {call : Call} {key : Bytes} (h : ¬call.Writes key)
    (map : Bytes → Option Bytes) : call.onMap map key = map key := by
  cases call with
  | set key' value => exact Function.update_of_ne (Ne.symm h) _ _
  | delete key' => exact Function.update_of_ne (Ne.symm h) _ _
  | get key' => rfl

theorem foldl_onMap_of_not_writes {calls : List Call} {key : Bytes}
    (h : ∀ call ∈ calls, ¬call.Writes key) (map : Bytes → Option Bytes) :
    calls.foldl Call.onMap map key = map key := by
  induction calls generalizing map with
  | nil => rfl
  | cons call calls ih =>
      rw [List.forall_mem_cons] at h
      rw [List.foldl_cons, ih h.2, Call.onMap_of_not_writes h.1]

theorem foldl_apply_spec (h : tbl.Wf hash) (calls : List Call) :
    (calls.foldl (Call.apply hash) tbl).Wf hash ∧
      (calls.foldl (Call.apply hash) tbl).bindings hash = calls.foldl Call.onMap (tbl.bindings hash) := by
  induction calls generalizing tbl with
  | nil => exact ⟨h, rfl⟩
  | cons call calls ih =>
      obtain ⟨hwf, hmap⟩ := call.apply_spec h
      rw [List.foldl_cons, List.foldl_cons, ← hmap]
      exact ih hwf

theorem runCalls_spec (hash : Bytes → Nat) (calls : List Call) :
    (runCalls hash calls).Wf hash ∧ (runCalls hash calls).bindings hash = mapOf calls :=
  foldl_apply_spec (wf_htCreate hash) calls

/-- The map binds a key to the value it was last set to. -/
theorem mapOf_eq_some_iff (calls : List Call) (key value : Bytes) :
    mapOf calls key = some value ↔ LastSet calls key value := by
  induction calls using List.reverseRecOn with
  | nil => simp [mapOf, LastSet]
  | append_singleton calls call ih =>
      have hsnoc : mapOf (calls ++ [call]) = call.onMap (mapOf calls) := by
        rw [mapOf, List.foldl_append]
        rfl
      rw [hsnoc]
      by_cases hwrites : call.Writes key
      · -- the last call decides
        have hlast : LastSet (calls ++ [call]) key value ↔ call = .set key value := by
          constructor
          · rintro ⟨earlier, later, heq, hlater⟩
            rcases List.eq_nil_or_concat later with rfl | ⟨later, last, rfl⟩
            · exact (List.append_singleton_inj.mp heq).2
            · rw [List.concat_eq_append, ← List.cons_append, ← List.append_assoc] at heq
              have hsame := (List.append_singleton_inj.mp heq).2
              exact absurd hwrites (hsame ▸ hlater last (by simp))
          · rintro rfl
            exact ⟨calls, [], rfl, by simp⟩
        rw [hlast]
        cases call with
        | set key' value' =>
            obtain rfl : key' = key := hwrites
            simp [Call.onMap]
        | delete key' =>
            obtain rfl : key' = key := hwrites
            simp [Call.onMap]
        | get key' => cases hwrites
      · rw [Call.onMap_of_not_writes hwrites, ih]
        constructor
        · rintro ⟨earlier, later, rfl, hlater⟩
          refine ⟨earlier, later ++ [call], by simp, ?_⟩
          rw [List.forall_mem_append]
          exact ⟨hlater, by simpa using hwrites⟩
        · rintro ⟨earlier, later, heq, hlater⟩
          rcases List.eq_nil_or_concat later with rfl | ⟨later, last, rfl⟩
          · have hsame := (List.append_singleton_inj.mp heq).2
            exact absurd (hsame ▸ rfl) hwrites
          · rw [List.concat_eq_append, ← List.cons_append, ← List.append_assoc] at heq
            exact ⟨earlier, later, (List.append_singleton_inj.mp heq).1,
              fun c hc => hlater c (by simp [hc])⟩

end Sequences

/-- **The hash table refines a finite map.** After any sequence of calls, `ht_get_value` returns the
value that a key was last set to, or -1 with a `NULL` result when the key is not bound;
`ht_delete_key` returns 0 exactly for bound keys; a further call leaves what is stored for other keys
alone; and `n_elems` is the number of bound keys. -/
theorem hash_table_refines_map (hash : Bytes → Nat) (calls : List Call) :
    let tbl := runCalls hash calls
    (∀ key value, htGetValue hash tbl key = (0, some value, value.length) ↔ LastSet calls key value) ∧
      (∀ key, htGetValue hash tbl key = (-1, none, 0) ↔ ∀ value, ¬LastSet calls key value) ∧
      (∀ key value, (htSetValue hash tbl key value).2 = 0) ∧
      (∀ key, (htDeleteKey hash tbl key).2 = 0 ↔ ∃ value, LastSet calls key value) ∧
      (∀ (call : Call) (key : Bytes), ¬call.Writes key →
        htGetValue hash (call.apply hash tbl) key = htGetValue hash tbl key) ∧
      tbl.nElems = {key | ∃ value, LastSet calls key value}.ncard := by
  intro tbl
  obtain ⟨hwf, hmap⟩ := runCalls_spec hash calls
  have hbindings (key value : Bytes) : tbl.bindings hash key = some value ↔ LastSet calls key value := by
    rw [hmap, mapOf_eq_some_iff]
  have hunbound (key : Bytes) : tbl.bindings hash key = none ↔ ∀ value, ¬LastSet calls key value := by
    rw [Option.eq_none_iff_forall_ne_some]
    exact forall_congr' fun value => not_congr (hbindings key value)
  refine ⟨fun key value => ?_, fun key => ?_, fun key value => (htSetValue_spec hwf key value).2.2,
    fun key => ?_, fun call key hwrites => ?_, ?_⟩
  · rw [htGetValue_eq, ← hbindings]
    cases tbl.bindings hash key <;> simp +contextual [eq_comm]
  · rw [htGetValue_eq, ← hunbound]
    cases tbl.bindings hash key <;> simp
  · rw [(htDeleteKey_spec hwf key).2.2]
    cases hkey : tbl.bindings hash key with
    | none => simp [(hunbound key).mp hkey]
    | some value => simpa using ⟨value, (hbindings key value).mp hkey⟩
  · rw [htGetValue_eq, htGetValue_eq, (call.apply_spec hwf).2, Call.onMap_of_not_writes hwrites]
  · rw [hwf.ncard_bindings]
    congr 1
    ext key
    exact Option.ne_none_iff_exists'.trans (exists_congr (hbindings key))

end ComputerNetworking.Dht
