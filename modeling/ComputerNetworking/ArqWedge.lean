import ComputerNetworking.ArqSafety

/-! Where the simulated Go-Back-N protocol stops for ever. The receiver does not acknowledge a packet again that it
has got before. So once it has got a whole window and no acknowledgement of it is under way, the sender repeats the
window again and again, and nothing else happens. -/

namespace ComputerNetworking.Arq

open OrderedMap ShortestPath Transition

variable {T : Type} [Costs T] {p : SenderParams T} {nack : Bool} {c c' : Connection T} {sent : Int}

/-- The receiver has got a window of packets beyond the last acknowledgement, and no acknowledgement of any of them
is under way. -/
def Wedged (p : SenderParams T) (c : Connection T) : Prop :=
  c.receiver.lastReceivedSeqNo + 1 = c.sender.lastAckSeqNo + p.window ∧
    ∀ a ∈ c.acks, a.seqNoExpected ≤ c.sender.lastAckSeqNo

/-- Each step leaves a wedged connection wedged, and takes neither side further. -/
theorem Wedged.step (hwedged : Wedged p c) (h : Inv p c sent) {e : T × Event} (hstep : Step p nack c e c') :
    Wedged p c' ∧ c'.sender.lastAckSeqNo = c.sender.lastAckSeqNo ∧
      c'.receiver.lastReceivedSeqNo = c.receiver.lastReceivedSeqNo := by
  obtain ⟨hfull, hacks⟩ := hwedged
  have hsent := h.sender.sent_le
  cases hstep with
  | timer0 hdue htimer hok =>
      obtain ⟨s', hok', -, hacked, -⟩ := (h.advance hdue).handleTimer0 htimer
      rw [hok'] at hok
      obtain ⟨rfl, rfl⟩ := Prod.mk.inj (Except.ok.inj hok)
      refine ⟨⟨?_, ?_⟩, hacked, rfl⟩
      · simpa only [hacked] using hfull
      · simpa only [hacked] using hacks
  | timer1 hdue htimer hok =>
      obtain ⟨s', hok', -, hacked, -⟩ := (h.advance hdue).handleTimer1 htimer
      rw [hok'] at hok
      obtain rfl := Except.ok.inj hok
      refine ⟨⟨?_, ?_⟩, hacked, rfl⟩
      · simpa only [hacked] using hfull
      · simpa only [hacked] using hacks
  | @data t d rest bitError hdue hdata =>
      -- every packet under way is one that the receiver has got before
      have hd := (h.data d (by simp [hdata])).1
      rcases receive_cases nack d bitError c.receiver with ⟨hnext, -⟩ | ⟨hlast, -, hack | ⟨hnew, -⟩⟩
      · omega
      · refine ⟨⟨?_, ?_⟩, rfl, hlast⟩
        · simpa only [hlast] using hfull
        · simpa only [hack, List.append_nil] using hacks
      · omega
  | dataLost hdue hdata => exact ⟨⟨hfull, hacks⟩, rfl, rfl⟩
  | @ack t a rest s bitError hdue hlist hok =>
      have hold : a.seqNoExpected = c.sender.lastAckSeqNo :=
        le_antisymm (hacks a (by simp [hlist])) (h.acks a (by simp [hlist])).1
      have hup := (h.acks a (by simp [hlist])).2
      have hlt := h.received_lt
      rcases (h.advance hdue).handleAck bitError hold.ge (by omega) with ⟨-, s', hok', -, hacked, -⟩ | ⟨-, hfail⟩
      · rw [hok'] at hok
        obtain rfl := Except.ok.inj hok
        have hsame : s'.lastAckSeqNo = c.sender.lastAckSeqNo := by
          rw [hacked, hold]
          split <;> rfl
        refine ⟨⟨?_, ?_⟩, hsame, rfl⟩
        · simpa only [hsame] using hfull
        · intro b hb
          simp only [hsame]
          exact hacks b (by simp [hlist, hb])
      · simp [hfail] at hok
  | @ackLost t a rest hdue hlist =>
      exact ⟨⟨hfull, fun b hb => hacks b (by simp [hlist, hb])⟩, rfl, rfl⟩

theorem Wedged.run (hwedged : Wedged p c) (h : Inv p c sent) {es : List (T × Event)}
    (hrun : Run (Step p nack) c es c') :
    Wedged p c' ∧ c'.sender.lastAckSeqNo = c.sender.lastAckSeqNo ∧
      c'.receiver.lastReceivedSeqNo = c.receiver.lastReceivedSeqNo := by
  induction hrun generalizing sent with
  | nil s => exact ⟨hwedged, rfl, rfl⟩
  | cons hstep _ ih =>
      obtain ⟨hnext, hacked, hlast⟩ := hwedged.step h hstep
      obtain ⟨hend, hacked', hlast'⟩ := ih hnext (h.step hstep)
      exact ⟨hend, hacked'.trans hacked, hlast'.trans hlast⟩

/-! ### The way there -/

/-- The time at which the packet `k` is sent for the first time when nothing is acknowledged. -/
def sendTime (p : SenderParams T) (k : Nat) : T :=
  (· + p.interval)^[k] 0

theorem sendTime_succ (k : Nat) : sendTime p (k + 1) = sendTime p k + p.interval :=
  Function.iterate_succ_apply' _ k 0

theorem sendTime_mono {j k : Nat} (h : j ≤ k) : sendTime p j ≤ sendTime p k := by
  induction k, h using Nat.le_induction with
  | base => exact le_rfl
  | succ k _ ih =>
      rw [sendTime_succ]
      exact ih.trans (Costs.le_add _ _)

theorem sendTime_lt_top (k : Nat) : sendTime p k < ⊤ := by
  induction k with
  | zero => exact Costs.zero_lt_top
  | succ k ih =>
      rw [sendTime_succ]
      exact (p.finite _ ih).2

/-- The connection after `k` packets, all of which came to the receiver while their acknowledgements were lost. -/
structure Unacked (p : SenderParams T) (k : Nat) (c : Connection T) : Prop where
  acked : c.sender.lastAckSeqNo = 0
  next : c.sender.nextSendSeqNo = k
  sendTime : (k : Int) < p.window → c.sender.nextSendTime = sendTime p k
  expiration : c.sender.timerExpiration = if k = 0 then ⊤ else 0 + p.timeout
  received : c.receiver.lastReceivedSeqNo + 1 = k
  data : c.data = []
  acks : c.acks = []

/-- The packet `k` is sent and received, and its acknowledgement is lost. -/
def ackLost (p : SenderParams T) (k : Nat) : List (T × Event) :=
  [(sendTime p k, .timer0 ⟨k, p.packetSize⟩), (sendTime p k, .data ⟨k, p.packetSize⟩ false),
    (sendTime p k, .ackLost ⟨k + 1⟩)]

/-- One more packet: it is sent, it is received, and the acknowledgement is lost. -/
theorem Unacked.next_packet {k : Nat} (hk : Unacked p k c) (h : Inv p c sent) (hwindow : (k : Int) < p.window)
    (htime : Arq.sendTime p k ≤ 0 + p.timeout) :
    ∃ c', Run (Step p nack) c (ackLost p k) c' ∧ Unacked p (k + 1) c' := by
  have hsend := hk.sendTime hwindow
  have htimer : c.sender.nextSendTimer = some (Arq.sendTime p k) := by
    rw [h.sender.sendTimer, hsend, if_neg (sendTime_lt_top k).ne]
  have hdue : c.Due (Arq.sendTime p k) := by
    refine ⟨hsend ▸ h.sender.now_le_send, sendTime_lt_top k, fun x hx => ?_, fun x hx => ?_⟩
    · exact (Option.some.inj (htimer.symm.trans hx)).le
    · obtain ⟨rfl, hne⟩ := h.sender.expTimer_some hx
      rw [hk.expiration] at hne ⊢
      split
      · exact le_top
      · exact htime
  obtain ⟨s, hok, -, hacked, hnext, hnextTime, hexp, -⟩ := (h.advance hdue).handleTimer0 htimer
  let d : ARQData := ⟨k, p.packetSize⟩
  have hd : (⟨c.sender.nextSendSeqNo, p.packetSize⟩ : ARQData) = d := by rw [hk.next]
  rw [hd] at hok
  have hnew : d.seqNo = c.receiver.lastReceivedSeqNo + 1 := hk.received.symm
  let c₁ : Connection T := { c with now := Arq.sendTime p k, sender := s, data := c.data ++ [d] }
  have hfirst : Step p nack c (Arq.sendTime p k, .timer0 d) c₁ := .timer0 hdue htimer hok
  have hinv₁ := h.step hfirst
  let r := c.receiver.handleMessage nack d false
  let c₂ : Connection T := { c₁ with receiver := r.1, data := [], acks := c.acks ++ r.2 }
  have hsecond : Step p nack c₁ (Arq.sendTime p k, .data d false) c₂ :=
    .data false hinv₁.due_now (by simp [c₁, hk.data])
  have hr := receive_next nack (d := d) hnew
  have hack : c₂.acks = [⟨k + 1⟩] := by
    have hlast := hk.received
    simp only [c₂, r, hk.acks, hr, List.nil_append, List.cons.injEq, ARQAck.mk.injEq, and_true]
    omega
  let c₃ : Connection T := { c₂ with acks := [] }
  have hthird : Step p nack c₂ (Arq.sendTime p k, .ackLost ⟨k + 1⟩) c₃ :=
    .ackLost (hinv₁.step hsecond).due_now hack
  refine ⟨c₃, .cons hfirst (.cons hsecond (.single hthird)), ?_⟩
  refine ⟨?_, ?_, ?_, ?_, ?_, rfl, rfl⟩
  · exact hacked.trans hk.acked
  · change s.nextSendSeqNo = _
    rw [hnext, hk.next]
    push_cast
    rfl
  · intro hlt
    change s.nextSendTime = _
    rw [hnextTime, hk.next, hk.acked, if_neg (by push_cast at hlt; omega), sendTime_succ]
  · change s.timerExpiration = _
    rw [hexp, hk.expiration, if_neg (Nat.succ_ne_zero k)]
    by_cases hzero : k = 0
    · subst hzero
      rw [if_pos rfl, if_pos (p.finite _ (sendTime_lt_top 0)).1]
      rfl
    · have hlate : 0 + p.timeout ≤ Arq.sendTime p k + p.timeout := Costs.add_mono _ (Costs.zero_le _)
      rw [if_neg hzero, if_neg (not_lt.mpr hlate)]
  · change r.1.lastReceivedSeqNo + 1 = _
    simp only [r, hr]
    rw [hk.received]
    push_cast
    rfl

theorem unacked_start : Unacked p 0 (.start p) where
  acked := rfl
  next := rfl
  sendTime := fun _ => rfl
  expiration := rfl
  received := rfl
  data := rfl
  acks := rfl

/-- A whole window is sent and received, and all its acknowledgements are lost, and nothing else. -/
def acksLost (p : SenderParams T) : List (T × Event) :=
  (List.range p.window.toNat).flatMap (ackLost p)

theorem wedged_reachable (nack : Bool) (hsize : 0 < p.packetSize)
    (hwindow : sendTime p (p.window.toNat - 1) ≤ 0 + p.timeout) :
    ∃ c, Run (Step p nack) (.start p) (acksLost p) c ∧ Unacked p p.window.toNat c ∧ Wedged p c := by
  have hpos := p.window_pos
  have hstage : ∀ k : Nat, (k : Int) ≤ p.window →
      ∃ c, Run (Step p nack) (.start p) ((List.range k).flatMap (ackLost p)) c ∧ Unacked p k c := by
    intro k
    induction k with
    | zero => exact fun _ => ⟨.start p, .nil _, unacked_start⟩
    | succ k ih =>
        intro hk
        push_cast at hk
        obtain ⟨c, hrun, hc⟩ := ih (by omega)
        obtain ⟨sent, hinv⟩ := inv_run hsize hrun
        obtain ⟨c', hrun', hc'⟩ := hc.next_packet hinv (by omega)
          ((sendTime_mono (by omega)).trans hwindow)
        rw [List.range_succ, List.flatMap_append, List.flatMap_singleton]
        exact ⟨c', hrun.append hrun', hc'⟩
  obtain ⟨c, hrun, hc⟩ := hstage p.window.toNat (by omega)
  refine ⟨c, hrun, hc, ?_, ?_⟩
  · rw [hc.received, hc.acked]
    omega
  · simp [hc.acks]

/-- A connection that is wedged stays as it is in every run: no packet is received and none is acknowledged any
more. -/
theorem wedged_forever {es es' : List (T × Event)} (hrun : Run (Step p nack) (.start p) es c)
    (hwedged : Wedged p c) (hrun' : Run (Step p nack) c es' c') :
    Wedged p c' ∧ c'.sender.lastAckSeqNo = c.sender.lastAckSeqNo ∧
      c'.receiver.lastReceivedSeqNo = c.receiver.lastReceivedSeqNo := by
  by_cases hsize : 0 < p.packetSize
  · obtain ⟨sent, hinv⟩ := inv_run hsize hrun
    exact hwedged.run hinv hrun'
  · obtain ⟨-, rfl⟩ := run_disabled hsize hrun
    obtain ⟨-, rfl⟩ := run_disabled hsize hrun'
    exact ⟨hwedged, rfl, rfl⟩

theorem wedged_forever_fourPackets :
    ∃ es c, Run (Step fourPackets false) (.start fourPackets) es c ∧ Wedged fourPackets c ∧
      ∀ es' c', Run (Step fourPackets false) c es' c' → Wedged fourPackets c' ∧
        c'.sender.lastAckSeqNo = c.sender.lastAckSeqNo ∧
        c'.receiver.lastReceivedSeqNo = c.receiver.lastReceivedSeqNo := by
  obtain ⟨c, hrun, -, hwedged⟩ := @wedged_reachable _ _ fourPackets false (by decide) (by decide)
  exact ⟨_, c, hrun, hwedged, fun _ _ hrun' => wedged_forever hrun hwedged hrun'⟩

/-! ### The sender goes on -/

end ComputerNetworking.Arq
