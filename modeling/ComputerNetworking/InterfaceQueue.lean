import ComputerNetworking.Transition
import Mathlib.Algebra.Group.Defs
import Mathlib.Algebra.Order.Group.Nat
import Mathlib.Algebra.Ring.Int.Defs

/-! The output queue of a network interface (`support/InterfaceQueue.cc` of ProtSim), with the link that it feeds.

The only event of the queue's own is `timeout`, for the end of a transmission. Its priority is `INT_MIN`, so that it
comes before all messages of the same time. The statistics are kept as sums; output vectors and the histogram are
left out. Times need no more arithmetic here than the code does with them. -/

namespace ComputerNetworking.Interface

open Transition

inductive Failure where
  | busy
  | alreadyScheduled
  | inThePast
  | transient
  | batch
  deriving DecidableEq

/-- The parameters, and the time that the link takes for a message. -/
structure Params (M T : Type) [LE T] [Add T] where
  maxQueueLength : Int
  transientRemoval : Int
  batchLength : Int
  transmission : M → T
  le_finish : ∀ t m, t ≤ t + transmission m

/-- `cWeightedStdDev`. -/
structure WeightedStdDev (T : Type) where
  weights : T
  sum : T
  deriving DecidableEq

/-- `cStdDev`. -/
structure StdDev (T : Type) where
  samples : Nat
  sum : T
  deriving DecidableEq

/-- What `recordStatistics` writes. -/
structure Batch (T : Type) where
  batch : Nat
  linkUtilization : WeightedStdDev T
  queueLength : WeightedStdDev T
  waitingTime : StdDev T
  deriving DecidableEq

/-- The queue holds each message with its arrival time. -/
structure State (M T : Type) where
  simTime : T
  queue : List (M × T)
  transmissionFinishes : T
  timeout : Option T
  totalMessages : Nat
  droppedMessages : Nat
  transientOver : Bool
  batchNum : Nat
  lastUtilChange : T
  lastQueueChange : T
  linkUtilizationStat : WeightedStdDev T
  queueLengthStat : WeightedStdDev T
  waitingTimeStat : StdDev T
  batches : List (Batch T)

inductive Event (M : Type) where
  | timeout
  | message (m : M)

/-- What the queue does with an event. -/
inductive Outcome (M : Type) where
  | sent (m : M)
  | idle
  | queued
  | dropped

variable {M T : Type}

/-- An event with its time and with what the queue did. -/
abbrev Action (M T : Type) := T × Event M × Outcome M

/-- The messages that a run was given and did not drop. -/
def accepted (as : List (Action M T)) : List M :=
  as.filterMap fun a =>
    match a with
    | (_, .message _, .dropped) => none
    | (_, .message m, _) => some m
    | _ => none

/-- The messages that a run sent, with their times. -/
def sent (as : List (Action M T)) : List (T × M) :=
  as.filterMap fun a =>
    match a with
    | (t, _, .sent m) => some (t, m)
    | _ => none

theorem accepted_append (as bs : List (Action M T)) : accepted (as ++ bs) = accepted as ++ accepted bs :=
  List.filterMap_append

theorem sent_append (as bs : List (Action M T)) : sent (as ++ bs) = sent as ++ sent bs :=
  List.filterMap_append

theorem sent_unchanged (as : List (Action M T)) (t : T) (e : Event M) {o : Outcome M} (h : ∀ m, o ≠ .sent m) :
    sent (as ++ [(t, e, o)]) = sent as := by
  cases o with
  | sent m => exact absurd rfl (h m)
  | idle => simp [sent]
  | queued => simp [sent]
  | dropped => simp [sent]

variable [LinearOrder T] [Zero T] [Add T] [Sub T] [SMul Nat T]

def WeightedStdDev.collect2 (value : Nat) (weight : T) (stat : WeightedStdDev T) : WeightedStdDev T :=
  ⟨stat.weights + weight, stat.sum + value • weight⟩

def StdDev.collect (value : T) (stat : StdDev T) : StdDev T :=
  ⟨stat.samples + 1, stat.sum + value⟩

namespace State

/-- The state that the queue is initialized to. -/
def initial (p : Params M T) : State M T where
  simTime := 0
  queue := []
  transmissionFinishes := 0
  timeout := none
  totalMessages := 0
  droppedMessages := 0
  transientOver := decide (p.transientRemoval ≤ 0)
  batchNum := 0
  lastUtilChange := 0
  lastQueueChange := 0
  linkUtilizationStat := ⟨0, 0⟩
  queueLengthStat := ⟨0, 0⟩
  waitingTimeStat := ⟨0, 0⟩
  batches := []

def resetStatistics (s : State M T) : State M T :=
  { s with
    lastUtilChange := s.simTime
    lastQueueChange := s.simTime
    linkUtilizationStat := ⟨0, 0⟩
    queueLengthStat := ⟨0, 0⟩
    waitingTimeStat := ⟨0, 0⟩
    totalMessages := 0
    droppedMessages := 0 }

def recordStatistics (batch : Nat) (s : State M T) : State M T :=
  let busy := if s.transmissionFinishes < s.simTime then 0 else 1
  let linkUtilizationStat := s.linkUtilizationStat.collect2 busy (s.simTime - s.lastUtilChange)
  let queueLengthStat := s.queueLengthStat.collect2 s.queue.length (s.simTime - s.lastQueueChange)
  { s with
    linkUtilizationStat := linkUtilizationStat
    queueLengthStat := queueLengthStat
    lastUtilChange := s.simTime
    lastQueueChange := s.simTime
    batches := s.batches ++ [⟨batch, linkUtilizationStat, queueLengthStat, s.waitingTimeStat⟩] }

def detectTransient (p : Params M T) (s : State M T) : Except Failure (State M T) :=
  let s :=
    if s.transientOver = false ∧ s.waitingTimeStat.samples ≥ p.transientRemoval then
      { s with transientOver := true }.resetStatistics
    else s
  if s.transientOver = true ∨ s.waitingTimeStat.samples < p.transientRemoval then .ok s else .error .transient

def detectBatch (p : Params M T) (s : State M T) : Except Failure (State M T) :=
  let s :=
    if s.transientOver = true ∧ p.batchLength > 0 ∧ s.waitingTimeStat.samples ≥ p.batchLength then
      { (s.recordStatistics s.batchNum).resetStatistics with batchNum := s.batchNum + 1 }
    else s
  if p.batchLength ≤ 0 ∨ s.waitingTimeStat.samples < p.batchLength then .ok s else .error .batch

def detect (p : Params M T) (s : State M T) : Except Failure (State M T) :=
  (s.detectTransient p).bind fun s => s.detectBatch p

/-- `send(msg,"out")`: the link takes one message at a time. -/
def send (p : Params M T) (m : M) (s : State M T) : Except Failure (State M T) :=
  if s.simTime < s.transmissionFinishes then .error .busy
  else .ok { s with transmissionFinishes := s.simTime + p.transmission m }

def scheduleTimeout (s : State M T) : Except Failure (State M T) :=
  if s.timeout.isSome then .error .alreadyScheduled
  else if s.transmissionFinishes < s.simTime then .error .inThePast
  else .ok { s with timeout := some s.transmissionFinishes }

/-- The steps common to both ways in which a message is sent. -/
def detectAndSend (p : Params M T) (m : M) (s : State M T) : Except Failure (State M T × Outcome M) :=
  (s.detect p).bind fun s => (s.send p m).bind fun s => s.scheduleTimeout.map fun s => (s, .sent m)

def handleMessage (p : Params M T) (s : State M T) : Event M → Except Failure (State M T × Outcome M)
  | .timeout =>
      match s.queue with
      | (m, arrivalTime) :: queue =>
          { s with
            queueLengthStat := s.queueLengthStat.collect2 s.queue.length (s.simTime - s.lastQueueChange)
            lastQueueChange := s.simTime
            queue := queue
            waitingTimeStat := s.waitingTimeStat.collect (s.simTime - arrivalTime) }.detectAndSend p m
      | [] =>
          .ok ({ s with
            linkUtilizationStat := s.linkUtilizationStat.collect2 1 (s.simTime - s.lastUtilChange)
            lastUtilChange := s.simTime }, .idle)
  | .message m =>
      let s := { s with totalMessages := s.totalMessages + 1 }
      if s.queue.isEmpty ∧ s.transmissionFinishes ≤ s.simTime then
        { s with
          linkUtilizationStat := s.linkUtilizationStat.collect2 0 (s.simTime - s.lastUtilChange)
          lastUtilChange := s.simTime
          waitingTimeStat := s.waitingTimeStat.collect 0 }.detectAndSend p m
      else if s.queue.length < p.maxQueueLength then
        .ok ({ s with
          queueLengthStat := s.queueLengthStat.collect2 s.queue.length (s.simTime - s.lastQueueChange)
          lastQueueChange := s.simTime
          queue := s.queue ++ [(m, s.simTime)] }, .queued)
      else .ok ({ s with droppedMessages := s.droppedMessages + 1 }, .dropped)

/-- The state in which an event is handled; the timeout is no longer scheduled when it is its own. -/
def atEvent (t : T) (s : State M T) : Event M → State M T
  | .timeout => { s with simTime := t, timeout := none }
  | .message _ => { s with simTime := t }

/-- An event may happen at `t`: a message comes after what happened before and after all timeouts up to its time. -/
def Due (s : State M T) (t : T) : Event M → Prop
  | .timeout => s.timeout = some t
  | .message _ => s.simTime ≤ t ∧ ∀ x, s.timeout = some x → t < x

end State

def Step (p : Params M T) (s : State M T) (a : Action M T) (s' : State M T) : Prop :=
  s.Due a.1 a.2.1 ∧ (s.atEvent a.1 a.2.1).handleMessage p a.2.1 = .ok (s', a.2.2)

/-! ### One step -/

section Spec

variable {p : Params M T} {s s' : State M T} {as : List (Action M T)}

/-- The assertion on the length of a batch fails: the transient is longer than a batch. -/
def BatchFails (p : Params M T) (s : State M T) : Prop :=
  s.transientOver = false ∧ (s.waitingTimeStat.samples : Int) < p.transientRemoval ∧
    0 < p.batchLength ∧ p.batchLength ≤ s.waitingTimeStat.samples

/-- The state after `detect`: the transient is over, a batch is full, or neither. -/
def detected (p : Params M T) (s : State M T) : State M T :=
  if s.transientOver = true then
    if 0 < p.batchLength ∧ p.batchLength ≤ s.waitingTimeStat.samples then
      { (s.recordStatistics s.batchNum).resetStatistics with batchNum := s.batchNum + 1 }
    else s
  else if p.transientRemoval ≤ s.waitingTimeStat.samples then { s with transientOver := true }.resetStatistics
  else s

theorem detect_ok (h : ¬BatchFails p s) : s.detect p = .ok (detected p s) := by
  unfold State.detect State.detectTransient State.detectBatch detected
  cases hover : s.transientOver with
  | true =>
      by_cases hfull : 0 < p.batchLength ∧ p.batchLength ≤ s.waitingTimeStat.samples
      · have hpos := hfull.1
        simp [hover, hfull, Except.bind, State.resetStatistics]
      · have hnot : p.batchLength ≤ 0 ∨ s.waitingTimeStat.samples < p.batchLength := by omega
        simp [hover, hfull, hnot, Except.bind]
  | false =>
      by_cases hend : p.transientRemoval ≤ s.waitingTimeStat.samples
      · have hnot : p.batchLength ≤ 0 ∨ 0 < p.batchLength := by omega
        rcases hnot with hnot | hnot
        · simp [hend, hnot, Except.bind, State.resetStatistics]
        · simp [hend, hnot, Except.bind, State.resetStatistics, not_le.mpr hnot]
      · have hlt := not_le.mp hend
        have hnot : p.batchLength ≤ 0 ∨ s.waitingTimeStat.samples < p.batchLength := by
          by_contra hcon
          exact h ⟨hover, hlt, by omega, by omega⟩
        simp [hover, hend, hlt, hnot, Except.bind]

theorem detect_error (h : BatchFails p s) : s.detect p = .error .batch := by
  obtain ⟨hover, hlt, hpos, hfull⟩ := h
  have hnot : ¬(p.batchLength ≤ 0 ∨ s.waitingTimeStat.samples < p.batchLength) := by omega
  simp [State.detect, State.detectTransient, State.detectBatch, hover, hlt, not_le.mpr hlt, hnot, Except.bind]

@[simp] theorem detected_simTime : (detected p s).simTime = s.simTime := by
  unfold detected
  split_ifs <;> rfl

@[simp] theorem detected_queue : (detected p s).queue = s.queue := by
  unfold detected
  split_ifs <;> rfl

@[simp] theorem detected_timeout : (detected p s).timeout = s.timeout := by
  unfold detected
  split_ifs <;> rfl

@[simp] theorem detected_finishes : (detected p s).transmissionFinishes = s.transmissionFinishes := by
  unfold detected
  split_ifs <;> rfl

/-- The state after `detectAndSend`. -/
def transmitted (p : Params M T) (m : M) (s : State M T) : State M T :=
  { detected p s with
    transmissionFinishes := s.simTime + p.transmission m
    timeout := some (s.simTime + p.transmission m) }

@[simp] theorem transmitted_queue {m : M} : (transmitted p m s).queue = s.queue :=
  detected_queue

/-- The link is free and nothing is scheduled, so `detectAndSend` fails at most in `detect`. -/
theorem detectAndSend_ok {m : M} (h : ¬BatchFails p s) (hfree : s.transmissionFinishes ≤ s.simTime)
    (htimer : s.timeout = none) : s.detectAndSend p m = .ok (transmitted p m s, .sent m) := by
  rw [State.detectAndSend, detect_ok h]
  have hfinish := p.le_finish s.simTime m
  simp [Except.bind, State.send, State.scheduleTimeout, Except.map, not_lt.mpr hfree, htimer,
    not_lt.mpr hfinish, transmitted]

theorem detectAndSend_error {m : M} (h : BatchFails p s) : s.detectAndSend p m = .error .batch := by
  rw [State.detectAndSend, detect_error h]
  rfl

/-- The first message of the queue has left it. -/
def popped (t arrivalTime : T) (queue : List (M × T)) (s : State M T) : State M T :=
  { s with
    simTime := t
    timeout := none
    queueLengthStat := s.queueLengthStat.collect2 s.queue.length (t - s.lastQueueChange)
    lastQueueChange := t
    queue := queue
    waitingTimeStat := s.waitingTimeStat.collect (t - arrivalTime) }

/-- The link is idle. -/
def idled (t : T) (s : State M T) : State M T :=
  { s with
    simTime := t
    timeout := none
    linkUtilizationStat := s.linkUtilizationStat.collect2 1 (t - s.lastUtilChange)
    lastUtilChange := t }

/-- A message has come while the link is idle. -/
def passed (t : T) (s : State M T) : State M T :=
  { s with
    simTime := t
    totalMessages := s.totalMessages + 1
    linkUtilizationStat := s.linkUtilizationStat.collect2 0 (t - s.lastUtilChange)
    lastUtilChange := t
    waitingTimeStat := s.waitingTimeStat.collect 0 }

/-- A message has been put into the queue. -/
def enqueued (t : T) (m : M) (s : State M T) : State M T :=
  { s with
    simTime := t
    totalMessages := s.totalMessages + 1
    queueLengthStat := s.queueLengthStat.collect2 s.queue.length (t - s.lastQueueChange)
    lastQueueChange := t
    queue := s.queue ++ [(m, t)] }

/-- The five things that the queue does. -/
inductive Does (p : Params M T) (s : State M T) : Action M T → State M T → Prop where
  | pop {t a : T} {m : M} {queue : List (M × T)} : s.timeout = some t → s.queue = (m, a) :: queue →
      ¬BatchFails p (popped t a queue s) →
      Does p s (t, .timeout, .sent m) (transmitted p m (popped t a queue s))
  | idle {t : T} : s.timeout = some t → s.queue = [] → Does p s (t, .timeout, .idle) (idled t s)
  | pass {t : T} {m : M} : s.timeout = none → s.simTime ≤ t → ¬BatchFails p (passed t s) →
      Does p s (t, .message m, .sent m) (transmitted p m (passed t s))
  | enqueue {t x : T} {m : M} : s.timeout = some x → s.simTime ≤ t → t < x →
      s.queue.length < p.maxQueueLength → Does p s (t, .message m, .queued) (enqueued t m s)
  | drop {t x : T} {m : M} : s.timeout = some x → s.simTime ≤ t → t < x →
      p.maxQueueLength ≤ s.queue.length →
      Does p s (t, .message m, .dropped)
        { s with
          simTime := t, totalMessages := s.totalMessages + 1, droppedMessages := s.droppedMessages + 1 }

/-- The queue between two events. -/
structure Inv (p : Params M T) (s : State M T) : Prop where
  busy : ∀ x, s.timeout = some x → s.transmissionFinishes = x ∧ s.simTime ≤ x
  idle : s.timeout = none → s.transmissionFinishes ≤ s.simTime ∧ s.queue = []
  length : (s.queue.length : Int) ≤ max p.maxQueueLength 0

omit [Sub T] [SMul Nat T] in
theorem inv_initial : Inv p (State.initial p) where
  busy := by simp [State.initial]
  idle := fun _ => ⟨le_rfl, rfl⟩
  length := le_max_right _ _

/-- The messages whose sending `detect` comes before. -/
def BatchDue (p : Params M T) (s : State M T) (t : T) (e : Event M) : Prop :=
  match e with
  | .timeout => ∃ m a queue, s.queue = (m, a) :: queue ∧ BatchFails p (popped t a queue s)
  | .message _ => s.timeout = none ∧ BatchFails p (passed t s)

/-- Nothing fails but the assertion on the batch. -/
theorem Inv.handleMessage (h : Inv p s) {t : T} {e : Event M} (hdue : s.Due t e) :
    (∃ s' o, (s.atEvent t e).handleMessage p e = .ok (s', o) ∧ Does p s (t, e, o) s') ∨
      (BatchDue p s t e ∧ (s.atEvent t e).handleMessage p e = .error .batch) := by
  cases e with
  | timeout =>
      obtain ⟨hfin, -⟩ := h.busy t hdue
      cases hqueue : s.queue with
      | nil =>
          refine Or.inl ⟨idled t s, .idle, ?_, .idle hdue hqueue⟩
          simp [State.handleMessage, State.atEvent, hqueue, idled]
      | cons entry queue =>
          obtain ⟨m, a⟩ := entry
          have hres : (s.atEvent t .timeout).handleMessage p .timeout =
              (popped t a queue s).detectAndSend p m := by
            simp [State.handleMessage, State.atEvent, hqueue, popped]
          rw [hres]
          by_cases hfail : BatchFails p (popped t a queue s)
          · exact Or.inr ⟨⟨m, a, queue, hqueue, hfail⟩, detectAndSend_error hfail⟩
          · exact Or.inl ⟨_, _, detectAndSend_ok hfail hfin.le rfl, .pop hdue hqueue hfail⟩
  | message m =>
      obtain ⟨hnow, hbefore⟩ := hdue
      cases htimer : s.timeout with
      | none =>
          obtain ⟨hfin, hqueue⟩ := h.idle htimer
          have hfree := hfin.trans hnow
          have hres : (s.atEvent t (.message m)).handleMessage p (.message m) =
              (passed t s).detectAndSend p m := by
            simp [State.handleMessage, State.atEvent, hqueue, hfree, passed]
          rw [hres]
          by_cases hfail : BatchFails p (passed t s)
          · exact Or.inr ⟨⟨htimer, hfail⟩, detectAndSend_error hfail⟩
          · exact Or.inl ⟨_, _, detectAndSend_ok hfail hfree htimer, .pass htimer hnow hfail⟩
      | some x =>
          left
          have hlt := hbefore x htimer
          have hbusy : ¬s.transmissionFinishes ≤ t := by
            rw [(h.busy x htimer).1]
            exact not_le.mpr hlt
          by_cases hroom : (s.queue.length : Int) < p.maxQueueLength
          · refine ⟨enqueued t m s, .queued, ?_, .enqueue htimer hnow hlt hroom⟩
            simp [State.handleMessage, State.atEvent, hbusy, hroom, enqueued]
          · refine ⟨_, .dropped, ?_, .drop htimer hnow hlt (not_lt.mp hroom)⟩
            simp [State.handleMessage, State.atEvent, hbusy, hroom]

theorem Inv.does (h : Inv p s) {a : Action M T} (hstep : Step p s a s') : Does p s a s' := by
  obtain ⟨t, e, o⟩ := a
  obtain ⟨hdue, hok⟩ := hstep
  rcases h.handleMessage hdue with ⟨s'', o', hok', hdoes⟩ | ⟨-, hfail⟩
  · rw [hok'] at hok
    obtain ⟨rfl, rfl⟩ := Prod.mk.inj (Except.ok.inj hok)
    exact hdoes
  · simp [hfail] at hok

theorem Inv.step (h : Inv p s) {a : Action M T} (hstep : Step p s a s') : Inv p s' := by
  cases h.does hstep with
  | @pop t a m queue htimer hqueue hfail =>
      refine ⟨?_, ?_, ?_⟩
      · intro x hx
        obtain rfl := Option.some.inj hx
        exact ⟨rfl, by simp [transmitted, popped, p.le_finish]⟩
      · simp [transmitted]
      · have hlen := h.length
        rw [hqueue, List.length_cons] at hlen
        simp only [transmitted, detected_queue, popped]
        push_cast at hlen
        omega
  | @idle t htimer hqueue =>
      obtain ⟨hfin, -⟩ := h.busy t htimer
      exact ⟨by simp [idled], fun _ => ⟨hfin.le, hqueue⟩, h.length⟩
  | @pass t m htimer hnow hfail =>
      refine ⟨?_, ?_, ?_⟩
      · intro x hx
        obtain rfl := Option.some.inj hx
        exact ⟨rfl, by simp [transmitted, passed, p.le_finish]⟩
      · simp [transmitted]
      · simpa [transmitted, passed] using h.length
  | @enqueue t x m htimer hnow hlt hroom =>
      refine ⟨?_, ?_, ?_⟩
      · intro y hy
        obtain ⟨hfin, -⟩ := h.busy x htimer
        obtain rfl : x = y := Option.some.inj (htimer.symm.trans hy)
        exact ⟨hfin, hlt.le⟩
      · simp [enqueued, htimer]
      · simp only [enqueued, List.length_append, List.length_singleton]
        push_cast
        omega
  | @drop t x m htimer hnow hlt hfull =>
      refine ⟨?_, by simp [htimer], h.length⟩
      intro y hy
      obtain ⟨hfin, -⟩ := h.busy x htimer
      obtain rfl : x = y := Option.some.inj (htimer.symm.trans hy)
      exact ⟨hfin, hlt.le⟩

/-! ### Runs -/

/-- What a run has sent, accepted and left in the queue. -/
structure History (p : Params M T) (as : List (Action M T)) (s : State M T) : Prop where
  inv : Inv p s
  fifo : accepted as = (sent as).map Prod.snd ++ s.queue.map Prod.fst
  apart : (sent as).Pairwise fun a b => a.1 + p.transmission a.2 ≤ b.1
  finished : ∀ a ∈ sent as, a.1 + p.transmission a.2 ≤ s.transmissionFinishes

omit [Zero T] [Sub T] [SMul Nat T] in
/-- A message is sent at a time at which all earlier ones are through. -/
theorem History.send (h : History p as s) {t : T} (m : M) (hlate : s.transmissionFinishes ≤ t) :
    (sent as ++ [(t, m)]).Pairwise (fun a b => a.1 + p.transmission a.2 ≤ b.1) ∧
      ∀ a ∈ sent as ++ [(t, m)], a.1 + p.transmission a.2 ≤ t + p.transmission m := by
  constructor
  · refine List.pairwise_append.mpr ⟨h.apart, List.pairwise_singleton _ _, fun a ha b hb => ?_⟩
    obtain rfl := List.mem_singleton.mp hb
    exact (h.finished a ha).trans hlate
  · intro a ha
    rcases List.mem_append.mp ha with ha | ha
    · exact ((h.finished a ha).trans hlate).trans (p.le_finish t m)
    · obtain rfl := List.mem_singleton.mp ha
      exact le_rfl

theorem History.step (h : History p as s) {a : Action M T} (hstep : Step p s a s') : History p (as ++ [a]) s' := by
  have hinv := h.inv.step hstep
  have hfifo := h.fifo
  cases h.inv.does hstep with
  | @pop t a m queue htimer hqueue hfail =>
      obtain ⟨hfin, -⟩ := h.inv.busy t htimer
      obtain ⟨hapart, hfinished⟩ := h.send m hfin.le
      rw [hqueue] at hfifo
      refine ⟨hinv, ?_, ?_, ?_⟩
      · rw [accepted_append, sent_append, hfifo, transmitted_queue]
        simp [accepted, sent, popped]
      · rw [sent_append]
        exact hapart
      · rw [sent_append]
        exact hfinished
  | @idle t htimer hqueue =>
      have hsame := sent_unchanged as t .timeout (o := .idle) (by simp)
      refine ⟨hinv, ?_, ?_, ?_⟩
      · rw [accepted_append, sent_append, hfifo]
        simp [accepted, sent, idled]
      · rw [hsame]
        exact h.apart
      · rw [hsame]
        exact h.finished
  | @pass t m htimer hnow hfail =>
      obtain ⟨hfin, hqueue⟩ := h.inv.idle htimer
      obtain ⟨hapart, hfinished⟩ := h.send m (hfin.trans hnow)
      rw [hqueue] at hfifo
      refine ⟨hinv, ?_, ?_, ?_⟩
      · rw [accepted_append, sent_append, hfifo, transmitted_queue]
        simp [accepted, sent, passed, hqueue]
      · rw [sent_append]
        exact hapart
      · rw [sent_append]
        exact hfinished
  | @enqueue t x m htimer hnow hlt hroom =>
      have hsame := sent_unchanged as t (.message m) (o := .queued) (by simp)
      refine ⟨hinv, ?_, ?_, ?_⟩
      · rw [accepted_append, sent_append, hfifo]
        simp [accepted, sent, enqueued]
      · rw [hsame]
        exact h.apart
      · rw [hsame]
        exact h.finished
  | @drop t x m htimer hnow hlt hfull =>
      have hsame := sent_unchanged as t (.message m) (o := .dropped) (by simp)
      refine ⟨hinv, ?_, ?_, ?_⟩
      · rw [accepted_append, sent_append, hfifo]
        simp [accepted, sent]
      · rw [hsame]
        exact h.apart
      · rw [hsame]
        exact h.finished

omit [Sub T] [SMul Nat T] in
theorem history_initial : History p [] (State.initial p) where
  inv := inv_initial
  fifo := rfl
  apart := .nil
  finished := by simp [sent]

theorem history_run (hrun : Run (Step p) (.initial p) as s) : History p as s := by
  have h := hrun.history (History p) (fun _ _ _ _ h hstep => h.step hstep) history_initial
  simpa using h

/-- The discipline of the queue in every run. What it was given and did not drop leaves it in order; the link carries
one message at a time; the queue is within its bound, and waits only for the link; a message is dropped only when the
link is busy and the queue is full; and nothing fails but the assertion on the batches. -/
theorem run_discipline (hrun : Run (Step p) (.initial p) as s) :
    accepted as = (sent as).map Prod.snd ++ s.queue.map Prod.fst ∧
      ((sent as).Pairwise fun a b => a.1 + p.transmission a.2 ≤ b.1) ∧
      (s.queue.length : Int) ≤ max p.maxQueueLength 0 ∧
      (s.queue ≠ [] → s.timeout = some s.transmissionFinishes ∧ s.simTime ≤ s.transmissionFinishes) ∧
      (∀ t m s', Step p s (t, .message m, .dropped) s' →
        t < s.transmissionFinishes ∧ p.maxQueueLength ≤ s.queue.length) ∧
      ∀ t e f, s.Due t e → (s.atEvent t e).handleMessage p e = .error f → f = .batch := by
  have h := history_run hrun
  refine ⟨h.fifo, h.apart, h.inv.length, fun hne => ?_, fun t m s' hstep => ?_, fun t e f hdue hfail => ?_⟩
  · cases htimer : s.timeout with
    | none => exact absurd (h.inv.idle htimer).2 hne
    | some x =>
        obtain ⟨rfl, hle⟩ := h.inv.busy x htimer
        exact ⟨rfl, hle⟩
  · cases h.inv.does hstep with
    | drop htimer hnow hlt hfull =>
        obtain ⟨hfin, -⟩ := h.inv.busy _ htimer
        exact ⟨hfin ▸ hlt, hfull⟩
  · rcases h.inv.handleMessage hdue with ⟨s', o, hok, -⟩ | ⟨-, herr⟩
    · simp [hok] at hfail
    · rw [herr] at hfail
      exact (Except.error.inj hfail).symm

/-- One place in the queue, on a link that needs a unit of time for each unit of a message. -/
def onePlace : Params Nat Int where
  maxQueueLength := 1
  transientRemoval := 0
  batchLength := 0
  transmission := Nat.cast
  le_finish := fun t m => by omega

/-- The first message is sent, the second waits for it, and the third is dropped. -/
theorem run_onePlace :
    ∃ s, Run (Step onePlace) (.initial onePlace)
        [(0, .message 3, .sent 3), (1, .message 5, .queued), (2, .message 7, .dropped), (3, .timeout, .sent 5)] s := by
  refine ⟨_, .cons ⟨⟨le_rfl, ?_⟩, rfl⟩ (.cons ⟨⟨Int.one_nonneg, ?_⟩, rfl⟩ (.cons ⟨⟨Int.le_add_one le_rfl, ?_⟩, rfl⟩
    (.single ⟨rfl, rfl⟩)))⟩
  · intro x hx
    cases hx
  · intro x hx
    obtain rfl : 3 = x := Option.some.inj hx
    decide
  · intro x hx
    obtain rfl : 3 = x := Option.some.inj hx
    decide

theorem run_discipline_onePlace :
    ∃ as s, Run (Step onePlace) (.initial onePlace) as s ∧ (sent as).map Prod.snd = [3, 5] ∧
      accepted as = (sent as).map Prod.snd ++ s.queue.map Prod.fst ∧
      (sent as).Pairwise fun a b => a.1 + (a.2 : Int) ≤ b.1 := by
  obtain ⟨s, hrun⟩ := run_onePlace
  obtain ⟨hfifo, hapart, -⟩ := run_discipline hrun
  exact ⟨_, s, hrun, rfl, hfifo, hapart⟩

end Spec

end ComputerNetworking.Interface
