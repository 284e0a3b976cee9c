import ComputerNetworking.InterfaceQueue
import Mathlib.Algebra.BigOperators.Group.List.Basic
import Mathlib.Algebra.Order.Group.Defs
import Mathlib.Tactic.Abel

/-! What the statistics of an interface queue say about its runs: when the assertion on the batches holds, how the
batches partition the messages, and what the sums over a batch are sums of. -/

namespace ComputerNetworking.Interface

open Transition

variable {M T : Type}

/-! ### Batches -/

section Batches

variable [LinearOrder T] [Zero T] [Add T] [Sub T] [SMul Nat T] {p : Params M T} {s s' : State M T}
  {as : List (Action M T)} {n : Int}

/-- The samples of `n` messages: first the transient, then full batches, then the batch that is not full. -/
structure Counted (p : Params M T) (n : Int) (s : State M T) : Prop where
  transient : s.transientOver = false → (s.waitingTimeStat.samples : Int) < p.transientRemoval
  batch : 0 < p.batchLength → (s.waitingTimeStat.samples : Int) < p.batchLength
  count : n = (if s.transientOver then max p.transientRemoval 0 else 0) + s.batchNum * p.batchLength +
    s.waitingTimeStat.samples
  numbers : s.batches.map Batch.batch = List.range s.batchNum
  full : ∀ b ∈ s.batches, (b.waitingTime.samples : Int) = p.batchLength

omit [Sub T] [SMul Nat T] in
theorem counted_initial : Counted p 0 (State.initial p) where
  transient := by simp [State.initial]
  batch := by simp [State.initial]
  count := by
    by_cases h : p.transientRemoval ≤ 0 <;> simp [State.initial, h]
  numbers := rfl
  full := by simp [State.initial]

/-- One more sample, and `detect`. -/
theorem Counted.detect (h : Counted p n s) {s₁ : State M T}
    (hsamples : s₁.waitingTimeStat.samples = s.waitingTimeStat.samples + 1)
    (hover : s₁.transientOver = s.transientOver) (hnum : s₁.batchNum = s.batchNum) (hbatches : s₁.batches = s.batches)
    (hnot : ¬BatchFails p s₁) : Counted p (n + 1) (detected p s₁) := by
  have hcount := h.count
  have hbatch := h.batch
  unfold detected
  split_ifs with ho hfull hend
  · -- a batch is full
    have hlen : (s.waitingTimeStat.samples : Int) + 1 = p.batchLength := by
      have := hbatch hfull.1
      have := hfull.2
      omega
    have hlast : s₁.waitingTimeStat.samples = p.batchLength := by omega
    refine ⟨?_, ?_, ?_, ?_, ?_⟩
    · simp [State.recordStatistics, State.resetStatistics, ho]
    · simp [State.recordStatistics, State.resetStatistics]
    · rw [← hover, ho] at hcount
      simp only [State.recordStatistics, State.resetStatistics, ho, hnum, if_true] at hcount ⊢
      push_cast
      rw [add_mul]
      omega
    · simp [State.recordStatistics, State.resetStatistics, hbatches, hnum, h.numbers, List.range_succ]
    · intro b hb
      simp only [State.recordStatistics, State.resetStatistics, hbatches, List.mem_append,
        List.mem_singleton] at hb
      rcases hb with hb | rfl
      · exact h.full b hb
      · exact hlast
  · refine ⟨by simp [ho], ?_, ?_, ?_, ?_⟩
    · intro hpos
      omega
    · rw [hover, hnum, hsamples]
      push_cast
      omega
    · rw [hbatches, hnum, h.numbers]
    · rw [hbatches]
      exact h.full
  · -- the transient is over
    have hfalse : s.transientOver = false := by rw [← hover]; simpa using ho
    have hlen := h.transient hfalse
    refine ⟨by simp [State.resetStatistics], by simp [State.resetStatistics], ?_, ?_, ?_⟩
    · rw [hfalse] at hcount
      simp only [State.resetStatistics, hnum]
      simp only [Bool.false_eq_true, if_false] at hcount
      simp only [if_true]
      push_cast
      omega
    · simp [State.resetStatistics, hbatches, hnum, h.numbers]
    · simpa [State.resetStatistics, hbatches] using h.full
  · have hfalse : s₁.transientOver = false := by simpa using ho
    refine ⟨fun _ => not_le.mp hend, ?_, ?_, ?_, ?_⟩
    · intro hpos
      by_contra hge
      exact hnot ⟨hfalse, not_le.mp hend, hpos, not_lt.mp hge⟩
    · rw [hover, hnum, hsamples]
      push_cast
      omega
    · rw [hbatches, hnum, h.numbers]
    · rw [hbatches]
      exact h.full

theorem Counted.step (h : Counted p (sent as).length s) (hinv : Inv p s) {a : Action M T} (hstep : Step p s a s') :
    Counted p (sent (as ++ [a])).length s' := by
  cases hinv.does hstep with
  | @pop t x m queue htimer hqueue hfail =>
      have hnext : Counted p _ (detected p (popped t x queue s)) := h.detect rfl rfl rfl rfl hfail
      rw [sent_append]
      simp only [sent, List.length_append]
      exact ⟨hnext.transient, hnext.batch, hnext.count, hnext.numbers, hnext.full⟩
  | @idle t htimer hqueue =>
      rw [sent_unchanged as t .timeout (o := .idle) (by simp)]
      exact ⟨h.transient, h.batch, h.count, h.numbers, h.full⟩
  | @pass t m htimer hnow hfail =>
      have hnext : Counted p _ (detected p (passed t s)) := h.detect rfl rfl rfl rfl hfail
      rw [sent_append]
      simp only [sent, List.length_append]
      exact ⟨hnext.transient, hnext.batch, hnext.count, hnext.numbers, hnext.full⟩
  | @enqueue t x m htimer hnow hlt hroom =>
      rw [sent_unchanged as t (.message m) (o := .queued) (by simp)]
      exact ⟨h.transient, h.batch, h.count, h.numbers, h.full⟩
  | @drop t x m htimer hnow hlt hfull =>
      rw [sent_unchanged as t (.message m) (o := .dropped) (by simp)]
      exact ⟨h.transient, h.batch, h.count, h.numbers, h.full⟩

theorem counted_run (hrun : Run (Step p) (.initial p) as s) : Inv p s ∧ Counted p (sent as).length s := by
  have h := hrun.history (fun as s => Inv p s ∧ Counted p (sent as).length s)
    (fun _ _ _ _ h hstep => ⟨h.1.step hstep, h.2.step h.1 hstep⟩)
    (show Inv p _ ∧ Counted p (sent []).length (State.initial p) from ⟨inv_initial, counted_initial⟩)
  simpa using h

/-- In every run the samples are those of the messages sent: the transient, the batches, each full when it is
recorded, and the rest. -/
theorem run_batches (hrun : Run (Step p) (.initial p) as s) :
    ((sent as).length : Int) =
        (if s.transientOver then max p.transientRemoval 0 else 0) + s.batchNum * p.batchLength +
          s.waitingTimeStat.samples ∧
      s.batches.map Batch.batch = List.range s.batchNum ∧
      (∀ b ∈ s.batches, (b.waitingTime.samples : Int) = p.batchLength) ∧
      (0 < p.batchLength → (s.waitingTimeStat.samples : Int) < p.batchLength) := by
  obtain ⟨-, h⟩ := counted_run hrun
  exact ⟨h.count, h.numbers, h.full, h.batch⟩

/-- The first message is the transient, and then two messages are a batch. -/
def twoPerBatch : Params Nat Int := { onePlace with transientRemoval := 1, batchLength := 2 }

/-- The transient, a batch of which one message waits, and the first message of the next batch. -/
def batchRun : List (Action Nat Int) :=
  [(0, .message 3, .sent 3), (1, .message 5, .queued), (3, .timeout, .sent 5), (8, .timeout, .idle),
    (9, .message 2, .sent 2), (10, .message 4, .queued), (11, .timeout, .sent 4)]

theorem run_batchRun :
    ∃ s, Run (Step twoPerBatch) (.initial twoPerBatch) batchRun s ∧ s.transientOver = true ∧ s.batchNum = 1 := by
  refine ⟨_, .cons ⟨⟨le_rfl, ?_⟩, rfl⟩ (.cons ⟨⟨Int.one_nonneg, ?_⟩, rfl⟩ (.cons ⟨rfl, rfl⟩ (.cons ⟨rfl, rfl⟩
    (.cons ⟨⟨Int.le_add_one le_rfl, ?_⟩, rfl⟩ (.cons ⟨⟨Int.le_add_one le_rfl, ?_⟩, rfl⟩ (.single ⟨rfl, rfl⟩)))))),
    rfl, rfl⟩
  · intro x hx
    cases hx
  · intro x hx
    obtain rfl : 3 = x := Option.some.inj hx
    decide
  · intro x hx
    cases hx
  · intro x hx
    obtain rfl : 11 = x := Option.some.inj hx
    decide

theorem run_batches_batchRun :
    ∃ s, Run (Step twoPerBatch) (.initial twoPerBatch) batchRun s ∧
      ((sent batchRun).length : Int) = 1 + 1 * 2 + s.waitingTimeStat.samples ∧
      s.batches.map Batch.batch = [0] ∧ (∀ b ∈ s.batches, (b.waitingTime.samples : Int) = 2) ∧
      (s.waitingTimeStat.samples : Int) < 2 := by
  obtain ⟨s, hrun, hover, hnum⟩ := run_batchRun
  obtain ⟨hcount, hnumbers, hfull, hlast⟩ := run_batches hrun
  rw [hover, hnum] at hcount
  rw [hnum] at hnumbers
  exact ⟨s, hrun, hcount, hnumbers, hfull, hlast (by decide)⟩

omit [Zero T] [Sub T] [SMul Nat T] in
/-- The samples stay below the length of a batch, when the transient is not longer. -/
theorem Counted.not_batchFails (h : Counted p n s) (hparams : p.batchLength ≤ 0 ∨ p.transientRemoval ≤ p.batchLength)
    {s₁ : State M T} (hsamples : s₁.waitingTimeStat.samples = s.waitingTimeStat.samples + 1) :
    ¬BatchFails p s₁ := by
  intro ⟨_, hlt, hpos, hge⟩
  have := h.batch hpos
  omega

/-! ### The assertion on the batches -/

/-- An idle queue that has sent `k` messages of the transient. -/
structure Warmup (k : Nat) (s : State M T) : Prop where
  timeout : s.timeout = none
  transient : s.transientOver = false
  samples : s.waitingTimeStat.samples = k

/-- A message on the idle link, which has all the time that it needs. -/
theorem Warmup.next {k : Nat} (h : Warmup k s) (hinv : Inv p s) (m : M) (hlt : (k : Int) + 1 < p.batchLength)
    (hlong : p.batchLength < p.transientRemoval) :
    ∃ as s', Run (Step p) s as s' ∧ Warmup (k + 1) s' := by
  have hsamples : (passed s.simTime s).waitingTimeStat.samples = k + 1 := by
    rw [← h.samples]
    rfl
  have hok : ¬BatchFails p (passed s.simTime s) := by
    intro ⟨_, _, _, hge⟩
    rw [hsamples] at hge
    push_cast at hge
    omega
  have hdet : detected p (passed s.simTime s) = passed s.simTime s := by
    have hover : (passed s.simTime s).transientOver = false := h.transient
    unfold detected
    rw [hover, hsamples]
    rw [if_neg (by simp), if_neg (by push_cast; omega)]
  obtain ⟨-, hqueue⟩ := hinv.idle h.timeout
  have hdue : s.Due s.simTime (.message m) := ⟨le_rfl, by simp [h.timeout]⟩
  rcases hinv.handleMessage hdue with ⟨s₁, o, hres, hdoes⟩ | ⟨⟨-, hfail⟩, -⟩
  swap
  · exact absurd hfail hok
  have hfirst : Step p s (s.simTime, .message m, o) s₁ := ⟨hdue, hres⟩
  have hs₁ : s₁ = transmitted p m (passed s.simTime s) := by
    cases hdoes with
    | pass => rfl
    | enqueue htimer => simp [h.timeout] at htimer
    | drop htimer => simp [h.timeout] at htimer
  subst hs₁
  have hinv₁ := hinv.step hfirst
  rcases hinv₁.handleMessage (t := s.simTime + p.transmission m) (e := .timeout) rfl with
    ⟨s₂, o', hres', hdoes'⟩ | ⟨⟨m', a, queue, hnot, -⟩, -⟩
  swap
  · simp [passed, hqueue] at hnot
  have hsecond : Step p (transmitted p m (passed s.simTime s)) (s.simTime + p.transmission m, .timeout, o') s₂ :=
    ⟨rfl, hres'⟩
  refine ⟨_, s₂, .cons hfirst (.single hsecond), ?_⟩
  cases hdoes' with
  | pop _ hnot => simp [passed, hqueue] at hnot
  | idle =>
      refine ⟨rfl, ?_, ?_⟩
      · simp only [idled, transmitted, hdet]
        exact h.transient
      · simp only [idled, transmitted, hdet]
        exact hsamples

theorem warmup_reachable (m : M) (hlong : p.batchLength < p.transientRemoval) {k : Nat}
    (hk : (k : Int) < p.batchLength) :
    ∃ as s, Run (Step p) (.initial p) as s ∧ Warmup k s := by
  induction k with
  | zero =>
      have hover : (State.initial p : State M T).transientOver = false := by
        simp only [State.initial, decide_eq_false_iff_not]
        push_cast at hk
        omega
      exact ⟨[], _, .nil _, ⟨rfl, hover, rfl⟩⟩
  | succ k ih =>
      push_cast at hk
      obtain ⟨as, s, hrun, hs⟩ := ih (by omega)
      obtain ⟨hinv, -⟩ := counted_run hrun
      obtain ⟨as', s', hrun', hs'⟩ := hs.next hinv m hk hlong
      exact ⟨as ++ as', s', hrun.append hrun', hs'⟩

/-- The queue never fails if and only if there are no batches or the transient is no longer than a batch. -/
theorem never_fails_iff (p : Params M T) (m : M) :
    (∀ as s t e, Run (Step p) (.initial p) as s → s.Due t e → ∃ r, (s.atEvent t e).handleMessage p e = .ok r) ↔
      p.batchLength ≤ 0 ∨ p.transientRemoval ≤ p.batchLength := by
  constructor
  · intro hall
    by_contra hparams
    -- a batch is full before the transient is over
    obtain ⟨hpos, hlong⟩ : 0 < p.batchLength ∧ p.batchLength < p.transientRemoval := by omega
    obtain ⟨as, s, hrun, hs⟩ := @warmup_reachable _ _ _ _ _ _ _ p m hlong (p.batchLength.toNat - 1) (by omega)
    obtain ⟨hinv, -⟩ := counted_run hrun
    have hsamples : ((passed s.simTime s).waitingTimeStat.samples : Int) = p.batchLength := by
      have hk : (passed s.simTime s).waitingTimeStat.samples = p.batchLength.toNat - 1 + 1 := by
        rw [← hs.samples]
        rfl
      omega
    have hfail : BatchFails p (passed s.simTime s) := ⟨hs.transient, by omega, hpos, by omega⟩
    have hdue : s.Due s.simTime (.message m) := ⟨le_rfl, by simp [hs.timeout]⟩
    obtain ⟨r, hok⟩ := hall as s _ _ hrun hdue
    rcases hinv.handleMessage hdue with ⟨s', o, hok', hdoes⟩ | ⟨-, herr⟩
    · cases hdoes with
      | pass _ _ hnot => exact hnot hfail
      | enqueue htimer => simp [hs.timeout] at htimer
      | drop htimer => simp [hs.timeout] at htimer
    · simp [herr] at hok
  · intro hparams as s t e hrun hdue
    obtain ⟨hinv, hcounted⟩ := counted_run hrun
    rcases hinv.handleMessage hdue with ⟨s', o, hok, -⟩ | ⟨hbatch, -⟩
    · exact ⟨_, hok⟩
    · cases e with
      | timeout =>
          obtain ⟨m', a, queue, -, hfail⟩ := hbatch
          exact absurd hfail (hcounted.not_batchFails hparams rfl)
      | message m' => exact absurd hbatch.2 (hcounted.not_batchFails hparams rfl)

end Batches

/-! ### Sums

Here times add up exactly, as doubles do while nothing is rounded: they form a group. -/

section Sums

variable [AddCommGroup T] [LinearOrder T] {p : Params M T} {s s' s₀ : State M T} {as : List (Action M T)}

/-- The time for which the messages in the queue have been waiting, taken together. -/
def backlog (t : T) (queue : List (M × T)) : T :=
  (queue.map fun entry => t - entry.2).sum

/-- The time from the last change of the utilization to the end of the transmission. -/
def occupied (s : State M T) : T :=
  match s.timeout with
  | some x => x - s.lastUtilChange
  | none => 0

def messages (as : List (Action M T)) : Nat :=
  as.countP fun a => a.2.1 matches .message _

def drops (as : List (Action M T)) : Nat :=
  as.countP fun a => a.2.2 matches .dropped

/-- The time that the link needs for the messages that a run sent. -/
def transmissionTime (p : Params M T) (as : List (Action M T)) : T :=
  ((sent as).map fun a => p.transmission a.2).sum

omit [LinearOrder T] in
theorem backlog_cons (t a : T) (m : M) (queue : List (M × T)) :
    backlog t ((m, a) :: queue) = (t - a) + backlog t queue := by
  simp [backlog]

omit [LinearOrder T] in
theorem backlog_append (t : T) (front back : List (M × T)) :
    backlog t (front ++ back) = backlog t front + backlog t back := by
  simp [backlog]

omit [LinearOrder T] in
/-- Each message in the queue waits while time goes on. -/
theorem backlog_advance (t t' : T) (queue : List (M × T)) :
    backlog t' queue = backlog t queue + queue.length • (t' - t) := by
  induction queue with
  | nil => simp [backlog]
  | cons entry queue ih =>
      obtain ⟨m, a⟩ := entry
      rw [backlog_cons, backlog_cons, ih, List.length_cons, succ_nsmul]
      abel

theorem transmissionTime_append (as bs : List (Action M T)) :
    transmissionTime p (as ++ bs) = transmissionTime p as + transmissionTime p bs := by
  simp [transmissionTime, sent_append]

/-- The statistics have just been reset. -/
structure Fresh (s : State M T) : Prop where
  samples : s.waitingTimeStat = ⟨0, 0⟩
  utilization : s.linkUtilizationStat = ⟨0, 0⟩
  queueLength : s.queueLengthStat = ⟨0, 0⟩
  total : s.totalMessages = 0
  dropped : s.droppedMessages = 0
  utilChange : s.lastUtilChange = s.simTime
  queueChange : s.lastQueueChange = s.simTime

/-- What the statistics are in a run from `s₀`, where they were reset. -/
structure Measured (p : Params M T) (s₀ : State M T) (as : List (Action M T)) (s : State M T) : Prop where
  samples : s.waitingTimeStat.samples = (sent as).length
  total : s.totalMessages = messages as
  dropped : s.droppedMessages = drops as
  utilWeights : s.linkUtilizationStat.weights = s.lastUtilChange - s₀.simTime
  queueWeights : s.queueLengthStat.weights = s.lastQueueChange - s₀.simTime
  utilization : s.linkUtilizationStat.sum + occupied s = transmissionTime p as + occupied s₀
  waiting : s.queueLengthStat.sum + s.queue.length • (s.simTime - s.lastQueueChange) + backlog s₀.simTime s₀.queue =
    s.waitingTimeStat.sum + backlog s.simTime s.queue

theorem Fresh.measured (h : Fresh s) : Measured p s [] s where
  samples := by simp [h.samples, sent]
  total := by simp [h.total, messages]
  dropped := by simp [h.dropped, drops]
  utilWeights := by simp [h.utilization, h.utilChange]
  queueWeights := by simp [h.queueLength, h.queueChange]
  utilization := by simp [h.utilization, transmissionTime, sent]
  waiting := by simp [h.queueLength, h.queueChange, h.samples]

theorem fresh_initial : Fresh (State.initial p) :=
  ⟨rfl, rfl, rfl, rfl, rfl, rfl, rfl⟩

/-- The statistics go on, or are reset. -/
theorem detected_cases (p : Params M T) (s : State M T) : detected p s = s ∨ Fresh (detected p s) := by
  unfold detected
  split_ifs
  · exact Or.inr ⟨rfl, rfl, rfl, rfl, rfl, rfl, rfl⟩
  · exact Or.inl rfl
  · exact Or.inr ⟨rfl, rfl, rfl, rfl, rfl, rfl, rfl⟩
  · exact Or.inl rfl

theorem Fresh.transmitted {m : M} (h : Fresh (detected p s)) : Fresh (transmitted p m s) :=
  ⟨h.samples, h.utilization, h.queueLength, h.total, h.dropped, h.utilChange, h.queueChange⟩

/-- What has been waited for is the same on both sides at any time. -/
theorem Measured.waiting_at (h : Measured p s₀ as s) (t : T) :
    s.queueLengthStat.sum + s.queue.length • (t - s.lastQueueChange) + backlog s₀.simTime s₀.queue =
      s.waitingTimeStat.sum + backlog t s.queue := by
  have hsplit : t - s.lastQueueChange = (s.simTime - s.lastQueueChange) + (t - s.simTime) := by abel
  calc s.queueLengthStat.sum + s.queue.length • (t - s.lastQueueChange) + backlog s₀.simTime s₀.queue
      = s.queueLengthStat.sum + s.queue.length • (s.simTime - s.lastQueueChange) + backlog s₀.simTime s₀.queue +
          s.queue.length • (t - s.simTime) := by
        rw [hsplit, nsmul_add]
        abel
    _ = s.waitingTimeStat.sum + backlog s.simTime s.queue + s.queue.length • (t - s.simTime) := by
        rw [h.waiting]
    _ = s.waitingTimeStat.sum + backlog t s.queue := by
        rw [backlog_advance s.simTime t, add_assoc]

theorem Measured.step (h : Measured p s₀ as s) (hinv : Inv p s) {a : Action M T} (hstep : Step p s a s') :
    Measured p s₀ (as ++ [a]) s' ∨ Fresh s' := by
  have hutil := h.utilization
  have hwait := h.waiting_at a.1
  cases hinv.does hstep with
  | @pop t x m queue htimer hqueue hfail =>
      rcases detected_cases p (popped t x queue s) with hsame | hfresh
      swap
      · exact Or.inr hfresh.transmitted
      left
      rw [occupied, htimer] at hutil
      rw [hqueue, backlog_cons] at hwait
      rw [transmitted, hsame]
      refine ⟨?_, ?_, ?_, h.utilWeights, ?_, ?_, ?_⟩
      · simp [popped, StdDev.collect, h.samples, sent]
      · simp [popped, h.total, messages]
      · simp [popped, h.dropped, drops]
      · simp [popped, WeightedStdDev.collect2, h.queueWeights]
      · change s.linkUtilizationStat.sum + (t + p.transmission m - s.lastUtilChange) = _
        rw [transmissionTime_append, add_right_comm, ← hutil]
        simp only [transmissionTime, sent, List.filterMap_cons, List.filterMap_nil, List.map_cons, List.map_nil,
          List.sum_singleton]
        abel
      · simp only [popped, WeightedStdDev.collect2, StdDev.collect, sub_self, nsmul_zero, add_zero]
        rw [hqueue, hwait, add_assoc]
  | @idle t htimer hqueue =>
      left
      rw [occupied, htimer] at hutil
      refine ⟨?_, ?_, ?_, ?_, h.queueWeights, ?_, hwait⟩
      · simp [idled, h.samples, sent]
      · simp [idled, h.total, messages]
      · simp [idled, h.dropped, drops]
      · simp [idled, WeightedStdDev.collect2, h.utilWeights]
      · change s.linkUtilizationStat.sum + 1 • (t - s.lastUtilChange) + 0 = _
        rw [one_nsmul, add_zero, transmissionTime_append, add_right_comm (transmissionTime p as), ← hutil]
        simp [transmissionTime, sent]
  | @pass t m htimer hnow hfail =>
      rcases detected_cases p (passed t s) with hsame | hfresh
      swap
      · exact Or.inr hfresh.transmitted
      left
      rw [occupied, htimer] at hutil
      rw [transmitted, hsame]
      refine ⟨?_, ?_, ?_, ?_, h.queueWeights, ?_, ?_⟩
      · simp [passed, StdDev.collect, h.samples, sent]
      · simp [passed, h.total, messages]
      · simp [passed, h.dropped, drops]
      · simp [passed, WeightedStdDev.collect2, h.utilWeights]
      · change s.linkUtilizationStat.sum + 0 • (t - s.lastUtilChange) + (t + p.transmission m - t) = _
        rw [zero_nsmul, transmissionTime_append, add_right_comm (transmissionTime p as), ← hutil]
        simp [transmissionTime, sent]
      · simpa [passed, StdDev.collect] using hwait
  | @enqueue t x m htimer hnow hlt hroom =>
      left
      refine ⟨?_, ?_, ?_, h.utilWeights, ?_, ?_, ?_⟩
      · simp [enqueued, h.samples, sent]
      · simp [enqueued, h.total, messages]
      · simp [enqueued, h.dropped, drops]
      · simp [enqueued, WeightedStdDev.collect2, h.queueWeights]
      · rw [transmissionTime_append]
        simpa [enqueued, occupied, transmissionTime, sent] using hutil
      · simp only [enqueued, WeightedStdDev.collect2, sub_self, nsmul_zero, add_zero, backlog_append]
        rw [hwait]
        simp [backlog]
  | @drop t x m htimer hnow hlt hfull =>
      left
      refine ⟨?_, ?_, ?_, h.utilWeights, h.queueWeights, ?_, hwait⟩
      · simp [h.samples, sent]
      · simp [h.total, messages]
      · simp [h.dropped, drops]
      · rw [transmissionTime_append]
        simpa [occupied, transmissionTime, sent] using hutil

/-- The statistics in every run, since they were reset: the samples are the messages sent since then. The time for
which the link was utilized is that of their transmission, but for what was left of a transmission at the reset and is
left of one now. The sum of the lengths of the queue over time is the time that the messages sent have waited, but for
what those in the queue had waited at the reset and those still in it have waited now. -/
theorem run_statistics (hrun : Run (Step p) (.initial p) as s) :
    ∃ as₀ s₀ as₁, as = as₀ ++ as₁ ∧ Run (Step p) (.initial p) as₀ s₀ ∧ Run (Step p) s₀ as₁ s ∧ Fresh s₀ ∧
      Measured p s₀ as₁ s := by
  have h := hrun.history (fun as s => Inv p s ∧ ∃ as₀ s₀ as₁, as = as₀ ++ as₁ ∧ Run (Step p) (.initial p) as₀ s₀ ∧
    Run (Step p) s₀ as₁ s ∧ Fresh s₀ ∧ Measured p s₀ as₁ s) ?_
    ⟨inv_initial, [], _, [], rfl, .nil _, .nil _, fresh_initial, fresh_initial.measured⟩
  · obtain ⟨-, as₀, s₀, as₁, heq, hrest⟩ := h
    exact ⟨as₀, s₀, as₁, by simpa using heq, hrest⟩
  · intro as s a s' ⟨hinv, as₀, s₀, as₁, heq, hrun₀, hrun₁, hfresh, hmeasured⟩ hstep
    refine ⟨hinv.step hstep, ?_⟩
    have hrun₁' := hrun₁.append (.single hstep)
    rcases hmeasured.step hinv hstep with hmeasured' | hfresh'
    · exact ⟨as₀, s₀, as₁ ++ [a], by rw [heq, List.append_assoc], hrun₀, hrun₁', hfresh, hmeasured'⟩
    · refine ⟨as ++ [a], s', [], by simp, ?_, .nil _, hfresh', hfresh'.measured⟩
      rw [heq, List.append_assoc]
      exact hrun₀.append hrun₁'

theorem run_statistics_batchRun :
    ∃ s, Run (Step twoPerBatch) (.initial twoPerBatch) batchRun s ∧
      ∃ as₀ s₀ as₁, batchRun = as₀ ++ as₁ ∧ Fresh s₀ ∧ Measured twoPerBatch s₀ as₁ s := by
  obtain ⟨s, hrun, -⟩ := run_batchRun
  obtain ⟨as₀, s₀, as₁, heq, -, -, hfresh, hmeasured⟩ := run_statistics hrun
  exact ⟨s, hrun, as₀, s₀, as₁, heq, hfresh, hmeasured⟩

end Sums

end ComputerNetworking.Interface
