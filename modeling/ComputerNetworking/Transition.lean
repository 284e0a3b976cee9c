import Mathlib.Data.List.Basic

/-! Labelled step relations: runs, invariants, bounded runs and inevitable states.

A step relation `step s a t` says that action `a` may take state `s` to state `t`. Runs keep their
actions in order, so that a result may speak of the steps of a run as well as of its states. -/

namespace ComputerNetworking.Transition

variable {State Action : Type*}

/-- A run from one state to another with the actions it takes. -/
inductive Run (step : State → Action → State → Prop) : State → List Action → State → Prop where
  | nil (s : State) : Run step s [] s
  | cons {s t u : State} {a : Action} {as : List Action} :
      step s a t → Run step t as u → Run step s (a :: as) u

/-- The steps of `step` taken in states and with actions that meet `cond`. -/
def Guarded (cond : State → Action → Prop) (step : State → Action → State → Prop) :
    State → Action → State → Prop :=
  fun s a t => cond s a ∧ step s a t

/-- Some run from `s` ends in a state in `goal`. -/
def Reaches (step : State → Action → State → Prop) (s : State) (goal : State → Prop) : Prop :=
  ∃ as t, Run step s as t ∧ goal t

/-- The states in which no step is possible. -/
def Terminal (step : State → Action → State → Prop) (s : State) : Prop :=
  ∀ a t, ¬step s a t

/-- A sequence stays in a state that it does not leave. -/
theorem stays {f : Nat → State} {s : State} (hstay : ∀ k, f k = s → f (k + 1) = s) {k : Nat} (h : f k = s)
    (j : Nat) : f (k + j) = s := by
  induction j with
  | zero => exact h
  | succ j ih => exact hstay (k + j) ih

section Runs

variable {step other : State → Action → State → Prop}

theorem Run.single {s t : State} {a : Action} (h : step s a t) : Run step s [a] t :=
  .cons h (.nil t)

theorem Run.append {s t u : State} {as bs : List Action} (h : Run step s as t)
    (h' : Run step t bs u) : Run step s (as ++ bs) u := by
  induction h with
  | nil s => exact h'
  | cons hstep _ ih => exact .cons hstep (ih h')

/-- What every step preserves, every run preserves. -/
theorem Run.invariant {inv : State → Prop} (hinv : ∀ s a t, inv s → step s a t → inv t)
    {s t : State} {as : List Action} (h : Run step s as t) (hs : inv s) : inv t := by
  induction h with
  | nil s => exact hs
  | cons hstep _ ih => exact ih (hinv _ _ _ hs hstep)

/-- What every step preserves, of the state and of the actions so far, every run preserves. -/
theorem Run.history (hist : List Action → State → Prop)
    (hstep : ∀ as s a t, hist as s → step s a t → hist (as ++ [a]) t) {s t : State} {as bs : List Action}
    (h : Run step s bs t) (hs : hist as s) : hist (as ++ bs) t := by
  induction h generalizing as with
  | nil s => simpa using hs
  | cons hfirst _ ih => simpa using ih (hstep _ _ _ _ hs hfirst)

/-- What every step reflects, every run reflects. -/
theorem Run.reflect {prop : State → Prop} {inv : State → Prop}
    (hinv : ∀ s a t, inv s → step s a t → inv t)
    (hprop : ∀ s a t, inv s → step s a t → prop t → prop s)
    {s t : State} {as : List Action} (h : Run step s as t) (hs : inv s) (ht : prop t) : prop s := by
  induction h with
  | nil s => exact ht
  | cons hstep _ ih => exact hprop _ _ _ hs hstep (ih (hinv _ _ _ hs hstep) ht)

theorem Run.mono (hsub : ∀ s a t, step s a t → other s a t) {s t : State} {as : List Action}
    (h : Run step s as t) : Run other s as t := by
  induction h with
  | nil s => exact .nil s
  | cons hstep _ ih => exact .cons (hsub _ _ _ hstep) ih

/-- A run of a system whose steps another one makes too, with actions of its own. -/
theorem Run.relabel {Label : Type*} {other : State → Label → State → Prop}
    (hsub : ∀ s a t, step s a t → ∃ b, other s b t) {s t : State} {as : List Action}
    (h : Run step s as t) : ∃ bs, Run other s bs t := by
  induction h with
  | nil s => exact ⟨[], .nil s⟩
  | cons hstep _ ih =>
      obtain ⟨b, hother⟩ := hsub _ _ _ hstep
      obtain ⟨bs, hrun⟩ := ih
      exact ⟨b :: bs, .cons hother hrun⟩

theorem Reaches.here {goal : State → Prop} {s : State} (h : goal s) : Reaches step s goal :=
  ⟨[], s, .nil s, h⟩

theorem Reaches.of_step {goal : State → Prop} {s t : State} {a : Action} (h : step s a t)
    (ht : goal t) : Reaches step s goal :=
  ⟨[a], t, .single h, ht⟩

theorem Reaches.trans {goal goal' : State → Prop} {s : State} (h : Reaches step s goal)
    (hnext : ∀ t, goal t → Reaches step t goal') : Reaches step s goal' := by
  obtain ⟨as, t, hrun, hgoal⟩ := h
  obtain ⟨bs, u, hrun', hgoal'⟩ := hnext t hgoal
  exact ⟨as ++ bs, u, hrun.append hrun', hgoal'⟩

/-- A property of the goal that steps reflect holds where the goal is reached from. -/
theorem Reaches.reflect {goal inv : State → Prop} (prop : State → Prop)
    (hinv : ∀ s a t, inv s → step s a t → inv t)
    (hprop : ∀ s a t, inv s → step s a t → prop t → prop s) (hgoal : ∀ t, goal t → prop t)
    {s : State} (h : Reaches step s goal) (hs : inv s) : prop s := by
  obtain ⟨as, t, hrun, ht⟩ := h
  exact hrun.reflect hinv hprop hs (hgoal t ht)

/-- A quantity that every step decreases bounds the length of a run. -/
theorem Run.length_le (measure : State → Nat) {inv : State → Prop}
    (hinv : ∀ s a t, inv s → step s a t → inv t)
    (hdec : ∀ s a t, inv s → step s a t → measure t < measure s)
    {s t : State} {as : List Action} (h : Run step s as t) (hs : inv s) :
    as.length + measure t ≤ measure s := by
  induction h with
  | nil s => simp
  | cons hstep _ ih =>
      have htail := ih (hinv _ _ _ hs hstep)
      have hhead := hdec _ _ _ hs hstep
      rw [List.length_cons]
      omega

end Runs

/-- Every way of stepping on from `s` reaches a state in `goal`: no run gets stuck before it and
no run avoids it. -/
inductive Inevitably (step : State → Action → State → Prop) (goal : State → Prop) :
    State → Prop where
  | here {s : State} : goal s → Inevitably step goal s
  | next {s : State} : (∃ a t, step s a t) →
      (∀ a t, step s a t → Inevitably step goal t) → Inevitably step goal s

section Inevitable

variable {step : State → Action → State → Prop} {goal goal' : State → Prop}

theorem Inevitably.mono (hsub : ∀ s, goal s → goal' s) {s : State}
    (h : Inevitably step goal s) : Inevitably step goal' s := by
  induction h with
  | here hgoal => exact .here (hsub _ hgoal)
  | next hex _ ih => exact .next hex ih

theorem Inevitably.trans (hnext : ∀ s, goal s → Inevitably step goal' s) {s : State}
    (h : Inevitably step goal s) : Inevitably step goal' s := by
  induction h with
  | here hgoal => exact hnext _ hgoal
  | next hex _ ih => exact .next hex ih

/-- An inevitable state is reached by some run. -/
theorem Inevitably.reaches {s : State} (h : Inevitably step goal s) : Reaches step s goal := by
  induction h with
  | here hgoal => exact .here hgoal
  | next hex _ ih =>
      obtain ⟨a, t, hstep⟩ := hex
      obtain ⟨as, u, hrun, hgoal⟩ := ih a t hstep
      exact ⟨a :: as, u, .cons hstep hrun, hgoal⟩

/-- When the inevitable states are terminal, every run that cannot be continued ends in one. -/
theorem Inevitably.of_run_terminal (hterm : ∀ s, goal s → Terminal step s) {s t : State}
    {as : List Action} (h : Inevitably step goal s) (hrun : Run step s as t)
    (ht : Terminal step t) : goal t := by
  induction h generalizing as with
  | here hgoal =>
      cases hrun with
      | nil => exact hgoal
      | cons hstep _ => exact absurd hstep (hterm _ hgoal _ _)
  | next hex _ ih =>
      cases hrun with
      | nil =>
          obtain ⟨a, u, hstep⟩ := hex
          exact absurd hstep (ht a u)
      | cons hstep htail => exact ih _ _ hstep htail

/-- What is inevitable in one system is inevitable in another one that steps the same way. -/
theorem Inevitably.map {State' Action' : Type*} {step' : State' → Action' → State' → Prop}
    {goal' : State' → Prop} (f : State → State')
    (hforth : ∀ s a t, step s a t → ∃ b, step' (f s) b (f t))
    (hback : ∀ s b u, step' (f s) b u → ∃ a t, step s a t ∧ u = f t)
    (hgoal : ∀ s, goal s → goal' (f s)) {s : State} (h : Inevitably step goal s) :
    Inevitably step' goal' (f s) := by
  induction h with
  | here h => exact .here (hgoal _ h)
  | next hex _ ih =>
      obtain ⟨a, t, hstep⟩ := hex
      obtain ⟨b, hstep'⟩ := hforth _ a t hstep
      refine .next ⟨b, _, hstep'⟩ fun b u hu => ?_
      obtain ⟨a, t, hstep, rfl⟩ := hback _ b u hu
      exact ih a t hstep

/-- A measure that every step decreases makes the states without a step inevitable. -/
theorem inevitably_of_measure (measure : State → Nat) {inv : State → Prop}
    (hinv : ∀ s a t, inv s → step s a t → inv t)
    (hdec : ∀ s a t, inv s → step s a t → measure t < measure s)
    (hgoal : ∀ s, inv s → goal s ∨ ∃ a t, step s a t) {s : State} (hs : inv s) :
    Inevitably step goal s := by
  induction hm : measure s using Nat.strongRecOn generalizing s with
  | ind m ih =>
      rcases hgoal s hs with hg | hex
      · exact .here hg
      · refine .next hex fun a t hstep => ?_
        exact ih (measure t) (hm ▸ hdec s a t hs hstep) (hinv s a t hs hstep) rfl

end Inevitable

end ComputerNetworking.Transition
