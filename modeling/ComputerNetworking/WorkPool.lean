import Mathlib.Data.List.Flatten
import ComputerNetworking.Transition

/-! Pools of tasks that are done one at a time, in any order, and that leave further tasks behind.

When every task leaves only tasks of lower rank, each run does the same tasks, each as often, whatever the
order. -/

namespace ComputerNetworking.WorkPool

open Transition

variable {T : Type*} {next : T → List T}

/-- Some task of the pool is done and replaced by the tasks it leaves behind. -/
inductive Step (next : T → List T) : List T → T → List T → Prop where
  | work (before after : List T) (t : T) :
      Step next (before ++ t :: after) t (before ++ (next t ++ after))

/-- A task with the tasks that come of it, for as many generations as `depth` says. -/
def descendants (next : T → List T) : Nat → T → List T
  | 0, _ => []
  | depth + 1, t => t :: (next t).flatMap (descendants next depth)

theorem terminal_nil : Terminal (Step next) [] := by
  intro t todo h
  generalize hs : ([] : List T) = s at h
  cases h with
  | work before after t => simp at hs

theorem step_of_mem {todo : List T} (h : todo ≠ []) : ∃ t todo', Step next todo t todo' := by
  cases todo with
  | nil => exact absurd rfl h
  | cons t todo => exact ⟨t, _, .work [] todo t⟩

/-- The terminal pools are the empty ones. -/
theorem terminal_iff {todo : List T} : Terminal (Step next) todo ↔ todo = [] := by
  constructor
  · intro h
    by_contra hne
    obtain ⟨t, todo', hstep⟩ : ∃ t todo', Step next todo t todo' := step_of_mem hne
    exact h t todo' hstep
  · intro h
    exact h ▸ terminal_nil

section Ranked

variable {rank : T → Nat}

/-- Generations beyond the rank of a task are empty. -/
theorem descendants_eq (hrank : ∀ t, ∀ u ∈ next t, rank u < rank t) {depth : Nat} {t : T}
    (h : rank t < depth) : descendants next depth t = descendants next (rank t + 1) t := by
  induction depth using Nat.strongRecOn generalizing t with
  | ind depth ih =>
      cases depth with
      | zero => omega
      | succ depth =>
          by_cases heq : depth = rank t
          · rw [heq]
          · rw [descendants, descendants]
            congr 1
            apply List.flatMap_congr
            intro u hu
            have hu' := hrank t u hu
            rw [ih depth (by omega) (by omega), ih (rank t) (by omega) hu']

/-- A task with all that comes of it. -/
def family (next : T → List T) (rank : T → Nat) (t : T) : List T := descendants next (rank t + 1) t

theorem family_eq (hrank : ∀ t, ∀ u ∈ next t, rank u < rank t) (t : T) :
    family next rank t = t :: (next t).flatMap (family next rank) := by
  rw [family, descendants]
  congr 1
  apply List.flatMap_congr
  intro u hu
  exact descendants_eq hrank (hrank t u hu)

/-- What has been done and what is still to come do not change. -/
theorem run_perm (hrank : ∀ t, ∀ u ∈ next t, rank u < rank t) {todo todo' done : List T}
    (hrun : Run (Step next) todo done todo') :
    (done ++ todo'.flatMap (family next rank)).Perm (todo.flatMap (family next rank)) := by
  induction hrun with
  | nil s => exact .refl _
  | @cons s todo₁ u t as hstep _ ih =>
      cases hstep with
      | work before after =>
          simp only [List.flatMap_append, List.flatMap_cons, family_eq hrank t] at ih ⊢
          exact (ih.cons t).trans List.perm_middle.symm

/-- A run that leaves nothing to do has done every task with all that comes of it, once each. -/
theorem done_perm (hrank : ∀ t, ∀ u ∈ next t, rank u < rank t) {todo done : List T}
    (hrun : Run (Step next) todo done []) : done.Perm (todo.flatMap (family next rank)) := by
  simpa using run_perm hrank hrun

/-- No run does more than that. -/
theorem length_le (hrank : ∀ t, ∀ u ∈ next t, rank u < rank t) {todo todo' done : List T}
    (hrun : Run (Step next) todo done todo') :
    done.length ≤ (todo.flatMap (family next rank)).length := by
  have h := (run_perm hrank hrun).length_eq
  rw [List.length_append] at h
  omega

/-- Every order of work empties the pool. -/
theorem inevitably_nil (hrank : ∀ t, ∀ u ∈ next t, rank u < rank t) (todo : List T) :
    Inevitably (Step next) (fun s => s = []) todo := by
  apply @inevitably_of_measure _ _ _ _ (fun s => (s.flatMap (family next rank)).length) fun _ => True
  · intro s t s' _ _
    trivial
  · intro s t s' _ hstep
    have h := (run_perm hrank (.single hstep)).length_eq
    rw [List.length_append, List.length_singleton] at h
    omega
  · intro s _
    by_cases hs : s = []
    · exact Or.inl hs
    · exact Or.inr (step_of_mem hs)
  · trivial

end Ranked

end ComputerNetworking.WorkPool
