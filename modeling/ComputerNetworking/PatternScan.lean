import Mathlib.Data.List.GetD
import Mathlib.Data.List.Infix

/-! Searching a pattern in an array, position by position.

The array has a size and is filled with a list and, behind it, a value that the pattern does not contain.
Looking at a position behind the size has no result. -/

namespace ComputerNetworking.PatternScan

variable {α : Type*}

/-- The pattern stands in the list at a position. -/
def OccursAt (pattern l : List α) (i : ℕ) : Prop := pattern <+: l.drop i

instance [DecidableEq α] (pattern l : List α) (i : ℕ) : Decidable (OccursAt pattern l i) :=
  inferInstanceAs (Decidable (_ <+: _))

/-- The first position at which the pattern stands in the list. -/
structure FirstAt (pattern l : List α) (t : ℕ) : Prop where
  occurs : OccursAt pattern l t
  first : ∀ i < t, ¬OccursAt pattern l i

theorem occursAt_cons {c : α} {pattern l : List α} {i : ℕ} :
    OccursAt (c :: pattern) l i ↔ l[i]? = some c ∧ OccursAt pattern l (i + 1) := by
  unfold OccursAt
  rcases Nat.lt_or_ge i l.length with hi | hi
  · rw [List.drop_eq_getElem_cons hi, List.cons_prefix_cons, List.getElem?_eq_getElem hi, Option.some_inj,
      eq_comm]
  · rw [List.drop_of_length_le hi, List.getElem?_eq_none hi]
    simp

/-- What is seen of a list has the pattern where the list has it, if it is seen whole. -/
theorem occursAt_take_iff {pattern l : List α} (hne : pattern ≠ []) {i s : ℕ} :
    OccursAt pattern (l.take s) i ↔ i + pattern.length ≤ s ∧ OccursAt pattern l i := by
  unfold OccursAt
  rw [List.drop_take, List.prefix_take_iff]
  have hpos := List.length_pos_iff.mpr hne
  constructor
  · rintro ⟨hfront, hlength⟩
    exact ⟨by omega, hfront⟩
  · rintro ⟨hlength, hfront⟩
    exact ⟨hfront, by omega⟩

theorem isInfix_of_occursAt {pattern l : List α} {i : ℕ} (h : OccursAt pattern l i) : pattern <:+: l :=
  List.IsPrefix.isInfix h |>.trans (List.drop_suffix i l).isInfix

/-- A pattern whose first element is nowhere else in it occurs first where it has been put behind a list
without it. -/
theorem not_occursAt_of_lt {c : α} {name mid rest : List α} (hname : c ∉ name)
    (hmid : ¬(c :: name) <:+: mid) {j : ℕ} (hj : j < mid.length) :
    ¬OccursAt (c :: name) (mid ++ (c :: name ++ rest)) j := by
  rintro ⟨tail, htail⟩
  rw [List.drop_append_of_le_length hj.le, List.append_eq_append_iff] at htail
  rcases htail with ⟨more, hmore, -⟩ | ⟨more, hmore, hrest⟩
  · exact hmid (isInfix_of_occursAt (i := j) ⟨more, hmore.symm⟩)
  · -- the pattern would begin again within itself
    obtain ⟨a, front, hfront⟩ := List.exists_cons_of_ne_nil (List.ne_nil_of_length_pos
      (l := mid.drop j) (by rw [List.length_drop]; omega))
    rw [hfront, List.cons_append, List.cons.injEq] at hmore
    cases more with
    | nil =>
        rw [List.append_nil] at hmore
        refine hmid (isInfix_of_occursAt (i := j) ?_)
        rw [OccursAt, hfront, ← hmore.1, ← hmore.2]
    | cons b more =>
        obtain rfl : c = b := (List.cons.inj hrest).1
        exact hname (hmore.2 ▸ List.mem_append_right _ List.mem_cons_self)

/-- A pattern is not found in front of a part without its first element. -/
theorem not_isInfix_append {c : α} {name skip gap : List α} (hskip : c ∉ skip)
    (hgap : ¬(c :: name) <:+: gap) : ¬(c :: name) <:+: skip ++ gap := by
  induction skip with
  | nil => exact hgap
  | cons a skip ih =>
      rw [List.mem_cons, not_or] at hskip
      rw [List.cons_append, List.infix_cons_iff, List.cons_prefix_cons]
      rintro (⟨heq, -⟩ | hwithin)
      · exact hskip.1 heq
      · exact ih hskip.2 hwithin

variable [DecidableEq α]

section Array

variable (size : ℕ) (array : ℕ → α)

/-- Whether the array has the pattern at a position; it is compared up to the first difference. -/
def matchAt : List α → ℕ → Option Bool
  | [], _ => some true
  | c :: pattern, i =>
      if i < size then
        if array i = c then matchAt pattern (i + 1) else some false
      else none

/-- The position at which a search stops that goes on for a number of rounds at most. -/
def scan (pattern : List α) : ℕ → ℕ → Option ℕ
  | 0, i => some i
  | rounds + 1, i =>
      match matchAt size array pattern i with
      | none => none
      | some true => some i
      | some false => scan pattern rounds (i + 1)

end Array

section Filled

variable {size : ℕ} {array : ℕ → α} {pattern l : List α} {blank : α}

/-- A pattern that is found lies within the array. -/
theorem le_size_of_matchAt {i : ℕ} (hne : pattern ≠ []) (h : matchAt size array pattern i = some true) :
    i + pattern.length ≤ size := by
  induction pattern generalizing i with
  | nil => exact absurd rfl hne
  | cons c pattern ih =>
      rw [matchAt] at h
      split at h
      · rename_i hlt
        split at h
        · by_cases hnil : pattern = []
          · rw [hnil, List.length_singleton]
            exact hlt
          · have hle := ih hnil h
            rw [List.length_cons]
            omega
        · cases h
      · cases h

/-- The array has the pattern where the list has it. -/
theorem matchAt_eq (harray : ∀ i, array i = l.getD i blank) (hblank : blank ∉ pattern) {i : ℕ}
    (hsize : i + pattern.length ≤ size) :
    matchAt size array pattern i = some (decide (OccursAt pattern l i)) := by
  induction pattern generalizing i with
  | nil => simp [matchAt, OccursAt]
  | cons c pattern ih =>
      rw [List.length_cons] at hsize
      rw [List.mem_cons, not_or] at hblank
      have hhead : array i = c ↔ l[i]? = some c := by
        rw [harray, List.getD_eq_getElem?_getD]
        cases l[i]? with
        | none => simpa using hblank.1
        | some a => simp
      rw [matchAt, if_pos (by omega)]
      split
      · rename_i hc
        rw [ih hblank.2 (by omega)]
        refine congrArg some (decide_eq_decide.mpr ?_)
        rw [occursAt_cons, and_iff_right (hhead.mp hc)]
      · rename_i hc
        refine congrArg some (Eq.symm (decide_eq_false fun hoccurs => hc ?_))
        exact hhead.mpr (occursAt_cons.mp hoccurs).1

theorem scan_found {i t rounds : ℕ} (hle : i ≤ t) (hlt : t < i + rounds)
    (hmiss : ∀ j, i ≤ j → j < t → matchAt size array pattern j = some false)
    (hmatch : matchAt size array pattern t = some true) : scan size array pattern rounds i = some t := by
  induction rounds generalizing i with
  | zero => omega
  | succ rounds ih =>
      rw [scan]
      by_cases heq : i = t
      · rw [heq, hmatch]
      · rw [hmiss i le_rfl (by omega)]
        exact ih (by omega) (by omega) fun j hj => hmiss j (by omega)

/-- A search that finds nothing stops behind its last position. -/
theorem scan_missed {i rounds : ℕ}
    (hmiss : ∀ j, i ≤ j → j < i + rounds → matchAt size array pattern j = some false) :
    scan size array pattern rounds i = some (i + rounds) := by
  induction rounds generalizing i with
  | zero => rfl
  | succ rounds ih =>
      rw [scan, hmiss i le_rfl (by omega)]
      exact (ih fun j hj hlt => hmiss j (by omega) (by omega)).trans (congrArg some (by omega))

/-- A list as an array has the pattern where it is found. -/
theorem occursAt_of_matchAt {i : ℕ} (h : matchAt l.length (fun i => l.getD i blank) pattern i = some true) :
    OccursAt pattern l i := by
  induction pattern generalizing i with
  | nil => exact List.nil_prefix
  | cons c pattern ih =>
      rw [matchAt] at h
      split at h
      · rename_i hlt
        split at h
        · rename_i hc
          rw [List.getD_eq_getElem _ _ hlt] at hc
          exact occursAt_cons.mpr ⟨by rw [List.getElem?_eq_getElem hlt, hc], ih h⟩
        · cases h
      · cases h

theorem lt_size_of_matchAt {i : ℕ} (hne : pattern ≠ []) {found : Bool}
    (h : matchAt size array pattern i = some found) : i < size := by
  obtain ⟨c, pattern, rfl⟩ := List.exists_cons_of_ne_nil hne
  rw [matchAt] at h
  split at h
  · assumption
  · cases h

/-- A search with rounds enough runs out of an array that does not have the pattern. -/
theorem scan_eq_none {i rounds : ℕ} (hne : pattern ≠ []) (hpos : 0 < rounds) (hrounds : size < i + rounds)
    (hmiss : ∀ j, matchAt size array pattern j ≠ some true) : scan size array pattern rounds i = none := by
  induction rounds generalizing i with
  | zero => omega
  | succ rounds ih =>
      rw [scan]
      cases hmatch : matchAt size array pattern i with
      | none => rfl
      | some found =>
          cases found with
          | true => exact absurd hmatch (hmiss i)
          | false =>
              have hlt := lt_size_of_matchAt hne hmatch
              exact ih (by omega) (by omega)

theorem le_of_scan {i rounds t : ℕ} (h : scan size array pattern rounds i = some t) : i ≤ t := by
  induction rounds generalizing i with
  | zero =>
      cases h
      exact le_rfl
  | succ rounds ih =>
      rw [scan] at h
      split at h
      · cases h
      · cases h
        exact le_rfl
      · exact (Nat.le_succ i).trans (ih h)

/-- A search stops at the pattern or behind its last position. -/
theorem stop_of_scan {i rounds t : ℕ} (h : scan size array pattern rounds i = some t) :
    matchAt size array pattern t = some true ∨ t = i + rounds := by
  induction rounds generalizing i with
  | zero =>
      cases h
      exact .inr rfl
  | succ rounds ih =>
      rw [scan] at h
      split at h
      · cases h
      · rename_i hmatch
        cases h
        exact .inl hmatch
      · exact (ih h).imp_right fun heq => by omega

end Filled

end ComputerNetworking.PatternScan
