import Mathlib.Data.Int.LeastGreatest
import ComputerNetworking.GoBackNWindow

/-! The retransmission timer of the sender.

`timerExpiration` is written when the sender starts, by an acknowledgement, by a timeout and after a
`send`. A history beside the system tells which packets have been sent since the last timeout and when.
With it the timer can be compared with the timeout of the oldest packet that waits for an
acknowledgement. -/

namespace ComputerNetworking.GoBackN

open Transition

/-! ### Times -/

/-- The timeout that `initialize` makes of the option `--timeout`; without the option, 10000. -/
def timeoutOption (msec : UInt32) : Timeval := ⟨msec.toNat / 1000, msec.toNat % 1000 * 1000⟩

/-- A time that `gettimeofday` returns: the microseconds are less than a second, and the timeout added
to it is a time before `LONG_MAX`. -/
structure ValidTime (cfg : SenderConfig) (now : Timeval) : Prop where
  nonneg : 0 ≤ now.tvUsec
  small : now.tvUsec < 1000000
  finite : (timeradd now cfg.timeout).tvSec < longMax

theorem timerLt_iff (a b : Timeval) :
    timerLt a b = true ↔ a.tvSec < b.tvSec ∨ a.tvSec = b.tvSec ∧ a.tvUsec < b.tvUsec := by
  unfold timerLt
  split <;> rw [decide_eq_true_iff] <;> omega

theorem timerLt_self (a : Timeval) : timerLt a a = false := by
  rw [← Bool.not_eq_true, timerLt_iff]
  omega

section Times

variable {cfg : SenderConfig} {msec : UInt32} {a b now timer : Timeval}

theorem timerLt_timeradd (hcfg : cfg.timeout = timeoutOption msec) (ha : ValidTime cfg a)
    (hb : ValidTime cfg b) :
    timerLt (timeradd a cfg.timeout) (timeradd b cfg.timeout) = timerLt a b := by
  have := ha.nonneg
  have := ha.small
  have := hb.nonneg
  have := hb.small
  rw [Bool.eq_iff_iff, timerLt_iff, timerLt_iff, hcfg, timeradd, timeradd, timeoutOption]
  dsimp only
  split <;> split <;> dsimp only <;> omega

/-- A timer in the past is not later than any timeout from now on. -/
theorem not_timeradd_lt (hcfg : cfg.timeout = timeoutOption msec) (hnow : ValidTime cfg now)
    (hlt : timerLt timer now = true) : timerLt (timeradd now cfg.timeout) timer = false := by
  have := hnow.nonneg
  have := hnow.small
  rw [timerLt_iff] at hlt
  rw [← Bool.not_eq_true, timerLt_iff, hcfg, timeradd, timeoutOption]
  dsimp only
  split <;> dsimp only <;> omega

end Times

/-! ### The history of the sender -/

/-- A packet that has been sent, with the clock after `send`. -/
structure Sending where
  seqNo : Int
  time : Timeval
  deriving DecidableEq, Repr

/-- One `send`: the sender before it, the packets sent since the last timeout, and the clock after it. -/
structure SendEvent where
  before : Sender
  log : List Sending
  now : Timeval
  deriving DecidableEq, Repr

def SendEvent.sending (e : SendEvent) : Sending := ⟨e.before.nextSendSeqNo, e.now⟩

structure History where
  /-- The packets sent since the last timeout. -/
  log : List Sending
  /-- The sends since the timer was last set by something else: an acknowledgement, a timeout or the
  start of the program. -/
  recent : List SendEvent
  deriving DecidableEq, Repr

/-- A packet of the log that is not acknowledged. -/
def Outstanding (s : Sender) (log : List Sending) (e : Sending) : Prop :=
  e ∈ log ∧ bufferContainsPacket s.dataBuffer e.seqNo = true

/-- The oldest packet of the log that is not acknowledged. -/
def Oldest (s : Sender) (log : List Sending) (e : Sending) : Prop :=
  Outstanding s log e ∧ ∀ e', Outstanding s log e' → e.seqNo ≤ e'.seqNo

section History

variable (cfg : SenderConfig)

/-- The stored timeouts are those of the last sends, and the timer runs and is not later than the timeout
of the oldest packet. -/
def TimerRunning (s : Sender) (log : List Sending) : Prop :=
  (∀ e, Outstanding s log e → ∃ d, getDataPacketFromBuffer s.dataBuffer e.seqNo = .live d ∧
    d.timeout = timeradd e.time cfg.timeout) ∧
  ∀ e d, Oldest s log e → getDataPacketFromBuffer s.dataBuffer e.seqNo = .live d →
    s.timerExpiration.tvSec ≠ longMax ∧ timerLt d.timeout s.timerExpiration = false

/-- The packet is sent in time. If nothing was outstanding, the timer is at most one timeout ahead. If
something was, the timer has not expired since the check, or the clock is still where it was when the
oldest packet was sent. At the start and after each timeout the timer is `LONG_MAX` until an
acknowledgement is accepted, so that the first packet sent by then is not in time: only what is sent after
an accepted acknowledgement meets this in all its sends. -/
def SendEvent.InTime (e : SendEvent) : Prop :=
  ((∀ o, ¬Outstanding e.before e.log o) →
    timerLt (timeradd e.now cfg.timeout) e.before.timerExpiration = false) ∧
  ∀ o, Oldest e.before e.log o → timerLt e.before.timerExpiration e.now = true →
    timerLt o.time e.now = false

/-- The sends of the send loop. -/
def sendEvents : List Timeval → Sender → List Sending → List SendEvent
  | [], _, _ => []
  | now :: clock, s, log =>
      if sendGuard cfg s then
        match afterSend cfg s now with
        | some s' => ⟨s, log, now⟩ :: sendEvents clock s' (log ++ [⟨s.nextSendSeqNo, now⟩])
        | none => []
      else []

/-- The sender reads an acknowledgement for new packets. -/
def acceptsAck (s : Sender) (input : IterationInput) : Bool :=
  match input.readable with
  | some ack => !ack.hasErrors && decide (ack.seqNoExpected > s.lastAckSeqNo)
  | none => false

/-- The history after a round of the sender. -/
def History.afterRound (h : History) (s : Sender) (expired : Bool) (input : IterationInput) : History :=
  let log := if expired then [] else h.log
  let recent := if expired || acceptsAck s input then [] else h.recent
  match beforeSend expired input s with
  | none => ⟨log, recent⟩
  | some t =>
      let writefds := selectGuard cfg s && input.writable
      let events := if writefds then sendEvents cfg input.clock t log else []
      ⟨log ++ events.map SendEvent.sending, recent ++ events⟩

def History.after (h : History) (sys : System) : Action → History
  | .senderRound expired input =>
      match sys.sender with
      | some s => h.afterRound cfg s expired input
      | none => h
  | _ => h

/-- The steps of the system with its history. -/
inductive TimedStep : System × History → Action → System × History → Prop where
  | mk {sys next : System} {h : History} {a : Action} (hstep : Step cfg codeTimer sys a next) :
      TimedStep (sys, h) a (next, h.after cfg sys a)

/-- What `gettimeofday` returns after each `send`. -/
def ClockValid (_ : System × History) : Action → Prop
  | .senderRound _ input => ∀ now ∈ input.clock, ValidTime cfg now
  | _ => True

end History

/-! ### One send -/

/-- The log is that of the sender. -/
structure LogHolds (cfg : SenderConfig) (s : Sender) (log : List Sending) : Prop where
  below : ∀ e ∈ log, e.seqNo < s.nextSendSeqNo
  covers : ∀ n, s.lastAckSeqNo < n → n < s.nextSendSeqNo → ∃ e ∈ log, e.seqNo = n
  unique : ∀ e ∈ log, ∀ e' ∈ log, e.seqNo = e'.seqNo → e = e'
  valid : ∀ e ∈ log, ValidTime cfg e.time
  stored : ∀ e, Outstanding s log e → ∃ d, getDataPacketFromBuffer s.dataBuffer e.seqNo = .live d ∧
    d.timeout = timeradd e.time cfg.timeout

/-- The timer is not later than the timeout of the oldest packet. -/
def OnTime (cfg : SenderConfig) (s : Sender) (log : List Sending) : Prop :=
  ∀ e, Oldest s log e → timerLt (timeradd e.time cfg.timeout) s.timerExpiration = false

section Sends

variable {cfg : SenderConfig} {packets : List GoBackNMessageStruct} {s s' : Sender} {log : List Sending}
  {now : Timeval} {msec : UInt32}

theorem LogHolds.timerRunning_iff (h : LogHolds cfg s log) : TimerRunning cfg s log ↔ OnTime cfg s log := by
  constructor
  · rintro ⟨-, htimer⟩ e he
    obtain ⟨d, hd, htimeout⟩ := h.stored e he.1
    exact htimeout ▸ (htimer e d he hd).2
  · intro htimer
    refine ⟨h.stored, fun e d he hd => ?_⟩
    obtain ⟨d', hd', htimeout⟩ := h.stored e he.1
    rw [hd] at hd'
    cases hd'
    have hle := htimer e he
    refine ⟨fun hnever => ?_, htimeout ▸ hle⟩
    have hfinite := (h.valid e he.1.1).finite
    rw [← Bool.not_eq_true, timerLt_iff] at hle
    omega

/-- If something is outstanding, there is an oldest packet. -/
theorem exists_oldest {e : Sending} (he : Outstanding s log e) : ∃ o, Oldest s log o := by
  obtain ⟨n, ⟨o, ho, rfl⟩, hleast⟩ := Int.exists_least_of_bdd
    (P := fun n => ∃ o, Outstanding s log o ∧ o.seqNo = n)
    ⟨s.dataBuffer.minSeqNo, by
      rintro _ ⟨o, ho, rfl⟩
      have hcontains := ho.2
      rw [bufferContainsPacket, decide_eq_true_iff] at hcontains
      omega⟩ ⟨_, e, he, rfl⟩
  exact ⟨o, ho, fun e' he' => hleast _ ⟨e', he', rfl⟩⟩

theorem afterSend_timer (hsend : afterSend cfg s now = some s') : s'.timerExpiration =
    if timerLt s.timerExpiration now then timeradd now cfg.timeout else s.timerExpiration := by
  rw [afterSend, Option.map_eq_some_iff] at hsend
  obtain ⟨buffer, -, rfl⟩ := hsend
  rfl

/-- A send stores the timeout of its packet and leaves the others as they are. -/
theorem SenderHolds.afterSend_get (h : SenderHolds packets s) (hmin : s.dataBuffer.minSeqNo ≤ s.nextSendSeqNo)
    (hlt : s.nextSendSeqNo < packets.length) (hsend : afterSend cfg s now = some s') :
    (∃ d, getDataPacketFromBuffer s'.dataBuffer s.nextSendSeqNo = .live d ∧
      d.timeout = timeradd now cfg.timeout) ∧
    ∀ n, n ≠ s.nextSendSeqNo →
      getDataPacketFromBuffer s'.dataBuffer n = getDataPacketFromBuffer s.dataBuffer n := by
  obtain ⟨queue, hrep, -, hlen⟩ := h.exists_queue
  obtain ⟨j, hj⟩ := Int.le.dest hmin
  obtain ⟨buffer, d, hd, hset, hrep', hmin', -⟩ :=
    hrep.setTimeout_eq (j := j) (by omega) (timeradd now cfg.timeout)
  rw [afterSend, ← hj, slotIndex_add] at hsend
  simp only [hset, Option.map_some, Option.some.injEq] at hsend
  subst hsend
  rw [← hj, ← hmin']
  refine ⟨⟨_, hrep'.get_eq (List.getElem?_set_self (by omega)), rfl⟩, fun n hn => ?_⟩
  by_cases hrange : n < buffer.minSeqNo ∨ buffer.minSeqNo + queue.length ≤ n
  · rw [hrep'.get_eq_null (by rwa [List.length_set]), hrep.get_eq_null (hmin' ▸ hrange)]
  · rw [not_or, not_lt, not_le] at hrange
    obtain ⟨i, rfl⟩ := Int.le.dest hrange.1
    have hi : queue[i]? = some queue[i] := List.getElem?_eq_getElem (by omega)
    have hi' : (queue.set j { d with timeout := timeradd now cfg.timeout })[i]? = some queue[i] := by
      rw [List.getElem?_set_ne (by omega), hi]
    rw [hrep'.get_eq hi', hmin', hrep.get_eq hi]

/-- What is outstanding after a send: the packets that were, and the new one. -/
theorem outstanding_send (hholds : SenderHolds packets s) (hle : s.dataBuffer.minSeqNo ≤ s.nextSendSeqNo)
    (hlt : s.nextSendSeqNo < packets.length) (hsend : afterSend cfg s now = some s') (e : Sending) :
    Outstanding s' (log ++ [⟨s.nextSendSeqNo, now⟩]) e ↔
      Outstanding s log e ∨ e = ⟨s.nextSendSeqNo, now⟩ := by
  obtain ⟨hholds', hmin, -⟩ := hholds.afterSend_spec hle hlt hsend
  unfold Outstanding
  rw [hholds.bufferContains, hholds'.bufferContains, hmin, List.mem_append, List.mem_singleton]
  constructor
  · rintro ⟨hmem | rfl, hrange⟩
    · exact .inl ⟨hmem, hrange⟩
    · exact .inr rfl
  · rintro (⟨hmem, hrange⟩ | rfl)
    · exact ⟨.inl hmem, hrange⟩
    · exact ⟨.inr rfl, hle, hlt⟩

/-- A send keeps the log. -/
theorem LogHolds.send (h : LogHolds cfg s log) (hholds : SenderHolds packets s)
    (hle : s.dataBuffer.minSeqNo ≤ s.nextSendSeqNo) (hlt : s.nextSendSeqNo < packets.length)
    (hnow : ValidTime cfg now) (hsend : afterSend cfg s now = some s') :
    LogHolds cfg s' (log ++ [⟨s.nextSendSeqNo, now⟩]) := by
  obtain ⟨hholds', hmin, hlast, hnext⟩ := hholds.afterSend_spec hle hlt hsend
  obtain ⟨hnew, hold⟩ := hholds.afterSend_get hle hlt hsend
  have hne {e : Sending} (he : e ∈ log) : e.seqNo ≠ s.nextSendSeqNo := (h.below e he).ne
  constructor
  case below =>
    intro e he
    rcases List.mem_append.mp he with he | he
    · have := h.below e he
      omega
    · rw [List.mem_singleton.mp he]
      change s.nextSendSeqNo < _
      omega
  case covers =>
    intro n hn hn'
    by_cases heq : n = s.nextSendSeqNo
    · exact ⟨_, List.mem_append_right _ List.mem_cons_self, heq.symm⟩
    · obtain ⟨e, he, hseq⟩ := h.covers n (by omega) (by omega)
      exact ⟨e, List.mem_append_left _ he, hseq⟩
  case unique =>
    intro e he e' he' heq
    rcases List.mem_append.mp he with he | he <;> rcases List.mem_append.mp he' with he' | he'
    · exact h.unique e he e' he' heq
    · rw [List.mem_singleton.mp he'] at heq
      exact absurd heq (hne he)
    · rw [List.mem_singleton.mp he] at heq
      exact absurd heq.symm (hne he')
    · rw [List.mem_singleton.mp he, List.mem_singleton.mp he']
  case valid =>
    intro e he
    rcases List.mem_append.mp he with he | he
    · exact h.valid e he
    · exact List.mem_singleton.mp he ▸ hnow
  case stored =>
    intro e he
    rcases (outstanding_send hholds hle hlt hsend e).mp he with he | rfl
    · rw [hold e.seqNo (hne he.1)]
      exact h.stored e he
    · exact hnew

theorem LogHolds.onTime_iff (h : LogHolds cfg s log) {o : Sending} (ho : Oldest s log o) :
    OnTime cfg s log ↔ timerLt (timeradd o.time cfg.timeout) s.timerExpiration = false := by
  refine ⟨fun htime => htime o ho, fun htime e he => ?_⟩
  obtain rfl := h.unique e he.1.1 o ho.1.1 (le_antisymm (he.2 o ho.1) (ho.2 e he.1))
  exact htime

/-- A packet that is sent while others are outstanding: the oldest one stays the same. -/
theorem LogHolds.onTime_send_later (h : LogHolds cfg s log) (hholds : SenderHolds packets s)
    (hcfg : cfg.timeout = timeoutOption msec) (hle : s.dataBuffer.minSeqNo ≤ s.nextSendSeqNo)
    (hlt : s.nextSendSeqNo < packets.length) (hnow : ValidTime cfg now)
    (hsend : afterSend cfg s now = some s') {o : Sending} (ho : Oldest s log o) :
    OnTime cfg s' (log ++ [⟨s.nextSendSeqNo, now⟩]) ↔
      OnTime cfg s log ∧ SendEvent.InTime cfg ⟨s, log, now⟩ := by
  have hvalid := h.valid o ho.1.1
  have ho' : Oldest s' (log ++ [⟨s.nextSendSeqNo, now⟩]) o := by
    refine ⟨(outstanding_send hholds hle hlt hsend o).mpr (.inl ho.1), fun e he => ?_⟩
    rcases (outstanding_send hholds hle hlt hsend e).mp he with he | rfl
    · exact ho.2 e he
    · exact (h.below o ho.1.1).le
  have hin : SendEvent.InTime cfg ⟨s, log, now⟩ ↔
      (timerLt s.timerExpiration now = true → timerLt o.time now = false) := by
    refine ⟨fun hin => hin.2 o ho, fun hin => ⟨fun hnone => absurd ho.1 (hnone o), fun o' ho' => ?_⟩⟩
    obtain rfl := h.unique o' ho'.1.1 o ho.1.1 (le_antisymm (ho'.2 o ho.1) (ho.2 o' ho'.1))
    exact hin
  rw [h.onTime_iff ho, (h.send hholds hle hlt hnow hsend).onTime_iff ho', hin, afterSend_timer hsend]
  cases hexpired : timerLt s.timerExpiration now with
  | false => simp
  | true =>
      rw [if_pos rfl, timerLt_timeradd hcfg hvalid hnow]
      refine ⟨fun hsame => ⟨not_timeradd_lt hcfg hvalid ?_, fun _ => hsame⟩, fun hsame => hsame.2 rfl⟩
      -- the timer was before `now`, and `now` is not after the time of the oldest packet
      rw [← Bool.not_eq_true, timerLt_iff] at hsame
      rw [timerLt_iff] at hexpired ⊢
      omega

/-- A packet that is sent while nothing is outstanding is the oldest one. -/
theorem LogHolds.onTime_send_first (h : LogHolds cfg s log) (hholds : SenderHolds packets s)
    (hcfg : cfg.timeout = timeoutOption msec) (hle : s.dataBuffer.minSeqNo ≤ s.nextSendSeqNo)
    (hlt : s.nextSendSeqNo < packets.length) (hnow : ValidTime cfg now)
    (hsend : afterSend cfg s now = some s') (hnone : ∀ e, ¬Outstanding s log e) :
    OnTime cfg s' (log ++ [⟨s.nextSendSeqNo, now⟩]) ↔
      OnTime cfg s log ∧ SendEvent.InTime cfg ⟨s, log, now⟩ := by
  have ho : Oldest s' (log ++ [⟨s.nextSendSeqNo, now⟩]) ⟨s.nextSendSeqNo, now⟩ := by
    refine ⟨(outstanding_send hholds hle hlt hsend _).mpr (.inr rfl), fun e he => ?_⟩
    rcases (outstanding_send hholds hle hlt hsend e).mp he with he | rfl
    · exact absurd he (hnone e)
    · exact le_rfl
  have hbefore : OnTime cfg s log := fun e he => absurd he.1 (hnone e)
  have hin : SendEvent.InTime cfg ⟨s, log, now⟩ ↔
      timerLt (timeradd now cfg.timeout) s.timerExpiration = false :=
    ⟨fun hin => hin.1 hnone, fun hin => ⟨fun _ => hin, fun o ho => absurd ho.1 (hnone o)⟩⟩
  rw [(h.send hholds hle hlt hnow hsend).onTime_iff ho, and_iff_right hbefore, hin, afterSend_timer hsend]
  cases hexpired : timerLt s.timerExpiration now with
  | false => simp
  | true => rw [if_pos rfl, timerLt_self, not_timeradd_lt hcfg hnow hexpired]

/-- After a send the timer is right if it was before and the packet has been sent in time. -/
theorem LogHolds.onTime_send (h : LogHolds cfg s log) (hholds : SenderHolds packets s)
    (hcfg : cfg.timeout = timeoutOption msec) (hle : s.dataBuffer.minSeqNo ≤ s.nextSendSeqNo)
    (hlt : s.nextSendSeqNo < packets.length) (hnow : ValidTime cfg now)
    (hsend : afterSend cfg s now = some s') :
    OnTime cfg s' (log ++ [⟨s.nextSendSeqNo, now⟩]) ↔
      OnTime cfg s log ∧ SendEvent.InTime cfg ⟨s, log, now⟩ := by
  by_cases hexists : ∃ e, Outstanding s log e
  · obtain ⟨e, he⟩ := hexists
    obtain ⟨o, ho⟩ := exists_oldest he
    exact h.onTime_send_later hholds hcfg hle hlt hnow hsend ho
  · push Not at hexists
    exact h.onTime_send_first hholds hcfg hle hlt hnow hsend hexists

/-! ### One round -/

/-- What holds of the sender and its history. -/
structure TimerHolds (cfg : SenderConfig) (s : Sender) (h : History) : Prop where
  log : LogHolds cfg s h.log
  onTime : OnTime cfg s h.log ↔ ∀ e ∈ h.recent, e.InTime cfg

/-- The log gets the numbers of the messages that are sent. -/
theorem sendEvents_sent (hp : PacketList packets) (hholds : SenderHolds packets s)
    {clock : List Timeval} {sent : List GoBackNMessageStruct}
    (hloop : sendLoop cfg clock s = some (s', sent)) :
    (sendEvents cfg clock s log).map (·.sending.seqNo) = sent.map (·.seqNo) := by
  induction clock generalizing s log sent with
  | nil =>
      obtain ⟨-, rfl⟩ := sendLoop_nil hloop
      rfl
  | cons now clock ih =>
      rcases sendLoop_cons hholds hloop with ⟨hguard, -, rfl⟩ |
        ⟨d, t, rest, hguard, hmin, hpacket, hsend, hrest, rfl⟩
      · simp [sendEvents, hguard]
      · have hlt := ((hholds.sendGuard_iff cfg).mp hguard).2
        have hholds' := (hholds.afterSend_spec hmin hlt hsend).1
        have hnumber := hp.numbered _ _ hpacket
        have hnonneg := hholds.minNonneg
        have hseq : d.packet.seqNo = s.nextSendSeqNo := by omega
        rw [sendEvents, if_pos hguard, hsend, List.map_cons, List.map_cons, ih hholds' hrest, hseq]
        rfl

/-- The send loop keeps what holds of the history. -/
theorem TimerHolds.sends {h : History} (htimer : TimerHolds cfg s h) (hholds : SenderHolds packets s)
    (hcfg : cfg.timeout = timeoutOption msec) {clock : List Timeval}
    (hclock : ∀ now ∈ clock, ValidTime cfg now) {sent : List GoBackNMessageStruct}
    (hloop : sendLoop cfg clock s = some (s', sent)) :
    TimerHolds cfg s' ⟨h.log ++ (sendEvents cfg clock s h.log).map SendEvent.sending,
      h.recent ++ sendEvents cfg clock s h.log⟩ := by
  induction clock generalizing s h sent with
  | nil =>
      obtain ⟨rfl, -⟩ := sendLoop_nil hloop
      rw [sendEvents, List.map_nil, List.append_nil, List.append_nil]
      exact htimer
  | cons now clock ih =>
      rcases sendLoop_cons hholds hloop with ⟨hguard, rfl, -⟩ |
        ⟨d, t, rest, hguard, hmin, -, hsend, hrest, -⟩
      · rw [sendEvents, hguard, if_neg Bool.false_ne_true, List.map_nil, List.append_nil, List.append_nil]
        exact htimer
      · have hlt := ((hholds.sendGuard_iff cfg).mp hguard).2
        have hholds' := (hholds.afterSend_spec hmin hlt hsend).1
        have hnow := hclock now List.mem_cons_self
        have hlog := htimer.log.send hholds hmin hlt hnow hsend
        have honTime := htimer.log.onTime_send hholds hcfg hmin hlt hnow hsend
        have hsent : TimerHolds cfg t ⟨h.log ++ [⟨s.nextSendSeqNo, now⟩], h.recent ++ [⟨s, h.log, now⟩]⟩ := by
          refine ⟨hlog, ?_⟩
          rw [honTime, htimer.onTime, List.forall_mem_append, List.forall_mem_singleton]
        have htail := ih hsent hholds' (fun time htime => hclock time (List.mem_cons_of_mem _ htime)) hrest
        rw [sendEvents, if_pos hguard, hsend]
        simpa [SendEvent.sending] using htail

/-- An acknowledgement for new packets leaves the packets behind it as they are, and the timer is that of
the first of them. -/
theorem SenderHolds.handleAck_get (h : SenderHolds packets s) {ack : GoBackNMessageStruct}
    (herr : ack.hasErrors = false) (hnew : s.lastAckSeqNo < ack.seqNoExpected)
    (hmin : s.dataBuffer.minSeqNo < ack.seqNoExpected) (hle : ack.seqNoExpected ≤ packets.length)
    (hack : handleAck s ack = some s') :
    (∀ n, ack.seqNoExpected ≤ n →
      getDataPacketFromBuffer s'.dataBuffer n = getDataPacketFromBuffer s.dataBuffer n) ∧
    ∀ d, getDataPacketFromBuffer s'.dataBuffer ack.seqNoExpected = .live d →
      s'.timerExpiration = d.timeout := by
  obtain ⟨queue, hrep, -, hlen⟩ := h.exists_queue
  obtain ⟨k, hk⟩ := Int.le.dest hmin.le
  obtain ⟨buffer, hfree, hrep', hmin', -⟩ := hrep.free_eq (k := k) (by omega) (by omega)
  simp only [handleAck, herr, Bool.false_eq_true, if_false, hnew, gt_iff_lt, if_true,
    getFirstSeqNoOfBuffer] at hack
  rw [← hk, hfree, Option.bind_some] at hack
  have hget (n : Int) (hn : ack.seqNoExpected ≤ n) := hrep.get_drop hrep' hmin' (hmin'.trans hk ▸ hn)
  rw [← hk] at hget ⊢
  split at hack
  · split at hack <;> cases hack
    rename_i d hd
    refine ⟨hget, fun d' hd' => ?_⟩
    rw [hd] at hd'
    cases hd'
    rfl
  · rename_i hsize
    cases hack
    refine ⟨hget, fun d hd => ?_⟩
    have hcount := hrep'.countEq
    unfold getBufferSize at hsize
    rw [hrep'.get_eq_null (by omega)] at hd
    cases hd

theorem acceptsAck_iff (s : Sender) (input : IterationInput) : acceptsAck s input = true ↔
    ∃ ack, input.readable = some ack ∧ ack.hasErrors = false ∧ s.lastAckSeqNo < ack.seqNoExpected := by
  unfold acceptsAck
  cases input.readable with
  | none => simp
  | some ack => simp

/-- The first part of a round keeps the log. -/
theorem LogHolds.freed (h : LogHolds cfg s log) (hholds : SenderHolds packets s) {n : Int}
    (hmin : s.dataBuffer.minSeqNo < n) (hnew : s.lastAckSeqNo < n) (hholds' : SenderHolds packets s')
    (hmin' : s'.dataBuffer.minSeqNo = n) (hlast' : s'.lastAckSeqNo = n - 1)
    (hnext' : s'.nextSendSeqNo = s.nextSendSeqNo)
    (hget : ∀ i, n ≤ i →
      getDataPacketFromBuffer s'.dataBuffer i = getDataPacketFromBuffer s.dataBuffer i) :
    LogHolds cfg s' log := by
  refine ⟨fun e he => hnext' ▸ h.below e he, fun i hi hi' => ?_, h.unique, h.valid, ?_⟩
  · exact h.covers i (by omega) (by omega)
  · rintro e ⟨hmem, hcontains⟩
    rw [hholds'.bufferContains] at hcontains
    rw [hget e.seqNo (by omega)]
    exact h.stored e ⟨hmem, (hholds.bufferContains _).mpr (by omega)⟩

/-- An acknowledgement sets the timer to the timeout of the oldest packet. -/
theorem LogHolds.onTime_freed (h : LogHolds cfg s log) (h' : LogHolds cfg s' log) {n : Int}
    (hnew : s.lastAckSeqNo < n) (hholds' : SenderHolds packets s') (hmin' : s'.dataBuffer.minSeqNo = n)
    (hnext' : s'.nextSendSeqNo = s.nextSendSeqNo)
    (hexpiration : ∀ d, getDataPacketFromBuffer s'.dataBuffer n = .live d → s'.timerExpiration = d.timeout) :
    OnTime cfg s' log := by
  rintro e ⟨he, hleast⟩
  have hrange := (hholds'.bufferContains e.seqNo).mp he.2
  have hbelow := h'.below e he.1
  obtain ⟨o, ho, hon⟩ := h.covers n hnew (by omega)
  have hle := hleast o ⟨ho, (hholds'.bufferContains o.seqNo).mpr (by omega)⟩
  have hen : e.seqNo = n := by omega
  obtain ⟨d, hd, htimeout⟩ := h'.stored e he
  rw [hen] at hd
  rw [hexpiration d hd, htimeout, timerLt_self]

/-- The first part of a round keeps what holds of the history. -/
theorem TimerHolds.readable {h : History} (htimer : TimerHolds cfg s h) (hholds : SenderHolds packets s)
    {input : IterationInput} (hbound : AckBounded packets input)
    (hread : handleReadable s input = some s') :
    TimerHolds cfg s' ⟨h.log, if acceptsAck s input then [] else h.recent⟩ := by
  cases handleReadable_spec hholds hbound hread with
  | ignored hold =>
      have hnot : ¬acceptsAck s input = true := by
        rw [acceptsAck_iff]
        rintro ⟨ack, hack, herr, hnew⟩
        rcases hold ack hack with hbad | hle
        · rw [herr] at hbad
          cases hbad
        · omega
      rw [if_neg hnot]
      exact htimer
  | freed ack hack herr hnew hmin hholds' hmin' hlast' hnext' =>
      rw [handleReadable, hack] at hread
      obtain ⟨hget, hexpiration⟩ := hholds.handleAck_get herr hnew hmin (hbound ack hack herr) hread
      have hlog := htimer.log.freed hholds hmin hnew hholds' hmin' hlast' hnext' hget
      have honTime := htimer.log.onTime_freed hlog hnew hholds' hmin' hnext' hexpiration
      rw [if_pos ((acceptsAck_iff s input).mpr ⟨ack, hack, herr, hnew⟩)]
      exact ⟨hlog, iff_of_true honTime (List.forall_mem_nil _)⟩

/-- At the start and after a timeout nothing is outstanding. -/
theorem timerHolds_nil (hnext : s.nextSendSeqNo ≤ s.lastAckSeqNo + 1) : TimerHolds cfg s ⟨[], []⟩ := by
  have hnone (e : Sending) : ¬Outstanding s [] e := fun he => absurd he.1 List.not_mem_nil
  refine ⟨⟨?_, fun n hn hn' => by omega, ?_, ?_, fun e he => absurd he (hnone e)⟩, ?_⟩
  · simp
  · simp
  · simp
  · exact iff_of_true (fun e he => absurd he.1 (hnone e)) (List.forall_mem_nil _)

/-- A round of the sender keeps what holds of the history. -/
theorem TimerHolds.round {h : History} (htimer : TimerHolds cfg s h) (hholds : SenderHolds packets s)
    (hcfg : cfg.timeout = timeoutOption msec) {expired : Bool} {input : IterationInput}
    (hbound : AckBounded packets input) (hclock : ∀ now ∈ input.clock, ValidTime cfg now)
    {sent : List GoBackNMessageStruct} (hround : senderIteration cfg expired input s = some (s', sent)) :
    TimerHolds cfg s' (h.afterRound cfg s expired input) := by
  rw [senderIteration, Option.bind_eq_some_iff] at hround
  obtain ⟨u, hbefore, hsend⟩ := hround
  obtain ⟨t, hread, hack, htime⟩ := beforeSend_spec hholds hbound hbefore
  have hu : TimerHolds cfg u ⟨if expired then [] else h.log,
      if expired || acceptsAck s input then [] else h.recent⟩ := by
    cases htime with
    | running hexpired =>
        rw [hexpired]
        exact htimer.readable hholds hbound hread
    | expired hexpired _ _ hlast hnext =>
        rw [hexpired]
        exact timerHolds_nil (by omega)
  rw [History.afterRound, hbefore]
  dsimp only
  split at hsend
  · rename_i hwrite
    rw [if_pos hwrite]
    exact hu.sends (htime.holds (hack.holds hholds)) hcfg hclock hsend
  · rename_i hwrite
    cases hsend
    rw [if_neg hwrite, List.map_nil, List.append_nil, List.append_nil]
    exact hu

end Sends

/-! ### Runs -/

section Runs

variable {cfg : SenderConfig} {packets : List GoBackNMessageStruct} {state state' : System × History}
  {a : Action} {msec : UInt32}

def TimedInv (cfg : SenderConfig) (packets : List GoBackNMessageStruct) (state : System × History) : Prop :=
  SystemInv cfg packets state.1 ∧ ∀ s, state.1.sender = some s → TimerHolds cfg s state.2

theorem TimedInv.step (hp : PacketList packets) (hwindow : 1 ≤ cfg.window)
    (hcfg : cfg.timeout = timeoutOption msec) (h : TimedInv cfg packets state)
    (hstep : Guarded (ClockValid cfg) (TimedStep cfg) state a state') : TimedInv cfg packets state' := by
  obtain ⟨hclock, ⟨hstep⟩⟩ := hstep
  obtain ⟨hinv, htimer⟩ := h
  refine ⟨inv_step hp hwindow hinv hstep, ?_⟩
  cases hstep with
  | @senderRound s expired input hs _ hread _ =>
      rw [History.after, hs]
      cases hround : senderIteration cfg expired input s with
      | none => rintro _ ⟨⟩
      | some result =>
          rintro _ ⟨⟩
          exact (htimer s hs).round (hinv.holds s hs) hcfg (ackBounded_of_inv hinv hread) hclock hround
  | _ => exact htimer

/-- Every run of the system has a history. -/
theorem exists_history {sys sys' : System} {actions : List Action}
    (hrun : Run (Step cfg codeTimer) sys actions sys') (h : History) :
    ∃ h', Run (TimedStep cfg) (sys, h) actions (sys', h') := by
  induction hrun generalizing h with
  | nil => exact ⟨h, .nil _⟩
  | cons hstep _ ih =>
      obtain ⟨h', hrun⟩ := ih (h.after cfg _ _)
      exact ⟨h', .cons ⟨hstep⟩ hrun⟩

end Runs

/-- A transfer at its start, before anything is sent. -/
def Transfer.timedStart (tr : Transfer) : System × History := (tr.start, ⟨[], []⟩)

/-- **When the timer runs.** In every state of every run, the timer is finite and not later than the
stored timeout of the oldest packet that is outstanding, and the stored timeouts are the times of the
sends plus the timeout, if and only if every packet has been sent in time since the timer was last set by
an acknowledgement, a timeout or the start of the program. -/
theorem timer_running_iff (tr : Transfer) (msec : UInt32) (hcfg : tr.cfg.timeout = timeoutOption msec)
    (actions : List Action) (sys : System) (h : History)
    (hrun : Run (Guarded (ClockValid tr.cfg) (TimedStep tr.cfg)) tr.timedStart actions (sys, h))
    (s : Sender) (hs : sys.sender = some s) :
    TimerRunning tr.cfg s h.log ↔ ∀ e ∈ h.recent, e.InTime tr.cfg := by
  have hstep (state : System × History) (a : Action) (state' : System × History)
      (hinv : TimedInv tr.cfg tr.packets state)
      (hstep : Guarded (ClockValid tr.cfg) (TimedStep tr.cfg) state a state') :
      TimedInv tr.cfg tr.packets state' :=
    hinv.step tr.packetList tr.window_pos hcfg hstep
  have hstart : TimedInv tr.cfg tr.packets tr.timedStart := by
    refine ⟨systemInv_start tr, ?_⟩
    rintro _ ⟨⟩
    apply timerHolds_nil
    change (0 : Int) ≤ 0 + 1
    decide
  have htimer := (hrun.invariant hstep hstart).2 s hs
  rw [htimer.log.timerRunning_iff]
  exact htimer.onTime

/-- The packets that `oneByteTransfer` has sent. -/
def oneByteLog : List Sending := [⟨0, ⟨1, 0⟩⟩, ⟨1, ⟨1, 0⟩⟩]

theorem timedStep_of_eq {cfg : SenderConfig} {sys next : System} {h h' : History} {a : Action}
    (hstep : Step cfg codeTimer sys a next) (heq : h.after cfg sys a = h') :
    TimedStep cfg (sys, h) a (next, h') :=
  heq ▸ ⟨hstep⟩

/-- The sends of the first round of `oneByteTransfer`. -/
def oneByteEvents : List SendEvent :=
  sendEvents oneByteTransfer.cfg sendTwo.clock (oneByteSender oneByteTransfer.start) []

theorem oneByteSent_timedStep :
    Guarded (ClockValid oneByteTransfer.cfg) (TimedStep oneByteTransfer.cfg) oneByteTransfer.timedStart
      (.senderRound false sendTwo) (oneByteSent, ⟨oneByteLog, oneByteEvents⟩) := by
  refine ⟨fun now hnow => ?_, timedStep_of_eq oneByteSent_step (by decide +kernel)⟩
  have heq : now = ⟨1, 0⟩ := by simpa [sendTwo] using hnow
  subst heq
  exact ⟨by decide, by decide, by decide⟩

/-- The acknowledgement of the first packet sets the timer to the timeout of the second one. -/
theorem timer_running_iff_oneByte :
    TimerRunning oneByteTransfer.cfg (oneByteSender oneByteAcked) oneByteLog := by
  have hacked : handleReadable (oneByteSender oneByteReceived) readFirst =
      some { oneByteSender oneByteAcked with } := by decide +kernel
  have hround : Step oneByteTransfer.cfg codeTimer oneByteReceived (.senderRound false readFirst)
      oneByteAcked := by
    refine oneByteRound_step ?_ ?_ ?_ hacked ?_
    all_goals decide +kernel
  have hhistory : History.after oneByteTransfer.cfg ⟨oneByteLog, oneByteEvents⟩ oneByteReceived
      (.senderRound false readFirst) = ⟨oneByteLog, []⟩ := by decide +kernel
  have hclock : ∀ now ∈ readFirst.clock, ValidTime oneByteTransfer.cfg now := by
    rintro now ⟨⟩
  have hrun : Run (Guarded (ClockValid oneByteTransfer.cfg) (TimedStep oneByteTransfer.cfg))
      oneByteTransfer.timedStart [.senderRound false sendTwo, .receiverRound (oneBytePacket 0 [7]),
        .receiverRound (oneBytePacket 1 []), .senderRound false readFirst]
      (oneByteAcked, ⟨oneByteLog, []⟩) := by
    refine .cons oneByteSent_timedStep (.cons ⟨trivial, ⟨.receiverRound rfl ?_⟩⟩
      (.cons ⟨trivial, ⟨.receiverRound rfl ?_⟩⟩ (.single ⟨hclock, timedStep_of_eq hround hhistory⟩)))
    all_goals decide +kernel
  exact (timer_running_iff oneByteTransfer 10000 (by decide) _ oneByteAcked ⟨oneByteLog, []⟩ hrun _
    (by decide +kernel)).mpr (List.forall_mem_nil _)

/-- After the first round both packets are outstanding, and the timer does not run: a send sets it only
when it lies in the past. -/
theorem timer_not_started :
    ∃ actions h, Run (Guarded (ClockValid oneByteTransfer.cfg) (TimedStep oneByteTransfer.cfg))
        oneByteTransfer.timedStart actions (oneByteSent, h) ∧
      oneByteSent.sender = some (oneByteSender oneByteSent) ∧
      Oldest (oneByteSender oneByteSent) h.log ⟨0, ⟨1, 0⟩⟩ ∧
      (oneByteSender oneByteSent).timerExpiration = .never ∧
      ¬TimerRunning oneByteTransfer.cfg (oneByteSender oneByteSent) h.log := by
  have holdest : Oldest (oneByteSender oneByteSent) oneByteLog ⟨0, ⟨1, 0⟩⟩ := by
    refine ⟨⟨by decide, by decide +kernel⟩, fun e he => ?_⟩
    have hmem := he.1
    rw [oneByteLog, List.mem_cons, List.mem_singleton] at hmem
    rcases hmem with rfl | rfl <;> decide
  have htimer : (oneByteSender oneByteSent).timerExpiration = .never := by decide +kernel
  refine ⟨_, _, .single oneByteSent_timedStep, by decide +kernel, holdest, htimer, ?_⟩
  rintro ⟨hstored, hrunning⟩
  obtain ⟨d, hd, -⟩ := hstored _ holdest.1
  refine (hrunning _ d holdest hd).1 ?_
  rw [htimer]
  rfl

end ComputerNetworking.GoBackN
