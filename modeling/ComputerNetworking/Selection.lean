import Mathlib.Data.List.Perm.Basic

/-! Loops that go through a list and keep one element, which a new one may replace.

`best` holds of the elements that such a loop is meant to find. It finds one in every order of the list
exactly if none of the others replaces one of them, as long as replacing decides between the two. -/

namespace ComputerNetworking.Selection

variable {α : Type*} (replaces : α → α → Prop) [DecidableRel replaces]

/-- The element that is kept when a new one comes. -/
def keep (kept new : α) : α := if replaces new kept then new else kept

/-- The element that is kept of a list. -/
def select (start : α) (l : List α) : α := l.foldl (keep replaces) start

section Select

variable {replaces} {best : α → Prop} {start : α} {l : List α}

theorem select_mem (start : α) (l : List α) : select replaces start l ∈ start :: l := by
  induction l generalizing start with
  | nil => exact List.mem_cons_self
  | cons x l ih =>
      rcases List.mem_cons.mp (ih (keep replaces start x)) with heq | hmem
      · rw [select, List.foldl_cons, ← select, heq, keep]
        split
        · exact List.mem_cons_of_mem _ List.mem_cons_self
        · exact List.mem_cons_self
      · exact List.mem_cons_of_mem _ (List.mem_cons_of_mem _ hmem)

theorem select_append_singleton (start : α) (l : List α) (x : α) :
    select replaces start (l ++ [x]) = keep replaces (select replaces start l) x :=
  List.foldl_append

/-- A best element is replaced by best elements only. -/
theorem best_keep {kept x : α} (hkept : best kept) (hx : ¬best x → ¬replaces x kept) :
    best (keep replaces kept x) := by
  unfold keep
  split
  · rename_i hreplaces
    by_contra hnot
    exact hx hnot hreplaces
  · exact hkept

theorem best_select_of_best (hstart : best start)
    (hstays : ∀ m, best m → ∀ x ∈ l, ¬best x → ¬replaces x m) : best (select replaces start l) := by
  induction l generalizing start with
  | nil => exact hstart
  | cons x l ih =>
      apply ih (best_keep hstart (hstays start hstart x List.mem_cons_self))
      exact fun m hm y hy => hstays m hm y (List.mem_cons_of_mem _ hy)

/-- The first best element of the list replaces what is kept before it. -/
theorem best_select (hex : ∃ m ∈ l, best m) (hstays : ∀ m, best m → ∀ x ∈ l, ¬best x → ¬replaces x m)
    (htakes : ∀ m, best m → ∀ x ∈ start :: l, ¬best x → replaces m x) :
    best (select replaces start l) := by
  induction l generalizing start with
  | nil =>
      obtain ⟨m, hm, -⟩ := hex
      cases hm
  | cons x l ih =>
      have hlater : ∀ m, best m → ∀ y ∈ l, ¬best y → ¬replaces y m :=
        fun m hm y hy => hstays m hm y (List.mem_cons_of_mem _ hy)
      change best (select replaces (keep replaces start x) l)
      by_cases hkept : best (keep replaces start x)
      · exact best_select_of_best hkept hlater
      · have hx : ¬best x := by
          intro hx
          apply hkept
          by_cases hstart : best start
          · exact best_keep hstart fun hnot => absurd hx hnot
          · rw [keep, if_pos (htakes x hx start List.mem_cons_self hstart)]
            exact hx
        obtain ⟨m, hm, hbest⟩ := hex
        have hmem : m ∈ l := (List.mem_cons.mp hm).resolve_left fun heq => hx (heq ▸ hbest)
        refine ih ⟨m, hmem, hbest⟩ hlater fun m hm y hy => ?_
        apply htakes m hm y
        rcases List.mem_cons.mp hy with rfl | hy
        · unfold keep
          split
          · exact List.mem_cons_of_mem _ List.mem_cons_self
          · exact List.mem_cons_self
        · exact List.mem_cons_of_mem _ (List.mem_cons_of_mem _ hy)

/-- An element that replaces the best ones is kept, or what is kept before it is not best. -/
theorem not_best_select_append {x : α} (hx : ¬best x) (hreplaces : ∀ m, best m → replaces x m) :
    ¬best (select replaces start (l ++ [x])) := by
  rw [select_append_singleton]
  unfold keep
  split
  · exact hx
  · rename_i hkept
    exact fun hbest => hkept (hreplaces _ hbest)

/-- The order of a list does not matter exactly if nothing else replaces its best elements. -/
theorem forall_perm_best_iff (hex : ∃ m ∈ l, best m)
    (halike : ∀ m m' x, best m → best m' → replaces x m → replaces x m')
    (hstart : ∀ m, best m → ¬best start → replaces m start)
    (hdecides : ∀ m, best m → ∀ x ∈ l, ¬best x → ¬replaces x m → replaces m x) :
    (∀ l', l'.Perm l → best (select replaces start l')) ↔
      ∀ m, best m → ∀ x ∈ l, ¬best x → ¬replaces x m := by
  constructor
  · intro h m hm x hx hnot hreplaces
    obtain ⟨before, after, rfl⟩ := List.append_of_mem hx
    refine not_best_select_append (l := before ++ after) hnot
      (fun m' hm' => halike m m' x hm hm' hreplaces) (h _ ?_)
    rw [List.append_assoc]
    exact (List.perm_append_singleton x after).append_left before
  · intro h l' hperm
    obtain ⟨m, hm, hbest⟩ := hex
    refine best_select ⟨m, hperm.mem_iff.mpr hm, hbest⟩
      (fun m hm x hx => h m hm x (hperm.mem_iff.mp hx)) fun m hm x hx hnot => ?_
    rcases List.mem_cons.mp hx with rfl | hx
    · exact hstart m hm hnot
    · exact hdecides m hm x (hperm.mem_iff.mp hx) hnot (h m hm x (hperm.mem_iff.mp hx) hnot)

end Select

end ComputerNetworking.Selection
