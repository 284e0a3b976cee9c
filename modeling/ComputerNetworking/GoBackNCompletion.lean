import ComputerNetworking.GoBackNProgress

/-! A transfer is completed from every state that meets `CanComplete`.

The rounds that make progress are lemmas about `Situation`, the three counters of a transfer: the
sender gets `nextSendSeqNo` into its buffer, sends up to the expected packet, and the packet and its
acknowledgement are delivered; from then on the packets go one by one. -/

namespace ComputerNetworking.GoBackN

open Transition

/-- With the packets in the buffer and in the window, the send loop sends as many as the socket
takes. -/
theorem sendLoop_count {packets : List GoBackNMessageStruct} {s : Sender}
    (h : SenderHolds packets s) (cfg : SenderConfig)
    (hmin : s.dataBuffer.minSeqNo ≤ s.nextSendSeqNo) (clock : List Timeval)
    (hwindow : s.nextSendSeqNo + clock.length ≤ s.lastAckSeqNo + cfg.window)
    (hlt : s.nextSendSeqNo + clock.length ≤ packets.length) :
    ∃ s' sent, sendLoop cfg clock s = some (s', sent) ∧
      s'.nextSendSeqNo = s.nextSendSeqNo + clock.length := by
  induction clock generalizing s with
  | nil =>
      obtain ⟨s', sent, hloop⟩ := @sendLoop_isSome cfg _ _ h hmin []
      refine ⟨s', sent, hloop, ?_⟩
      unfold sendLoop at hloop
      split at hloop
      · split at hloop <;> cases hloop
        simp
      · cases hloop
        simp
  | cons now clock ih =>
      rw [List.length_cons] at hwindow hlt
      obtain ⟨d, hget, -⟩ := h.get_live hmin (by omega)
      obtain ⟨t, hafter, hholds, hmin', hack, hnext⟩ := h.afterSend_eq cfg now hmin (by omega)
      obtain ⟨s', sent, hloop, hcount⟩ := ih hholds (by omega) (by omega) (by omega)
      refine ⟨s', d.packet :: sent, ?_, by rw [hcount, hnext, List.length_cons]; omega⟩
      rw [sendLoop, if_pos ((h.sendGuard_iff cfg).mpr ⟨by omega, by omega⟩)]
      simp only [hget, hafter, Option.bind_some, hloop, Option.map_some]

/-- The counters of a transfer: the lower end of the buffer, `nextSendSeqNo` and the number that the
receiver expects. -/
structure Situation (cfg : SenderConfig) (packets : List GoBackNMessageStruct)
    (low next expected : Int) (sys : System) : Prop where
  inv : ProgressInv cfg packets sys
  sender : ∃ s, sys.sender = some s ∧ s.dataBuffer.minSeqNo = low ∧ s.nextSendSeqNo = next
  expected : sys.receiver.expected = expected

section Rounds

variable {cfg : SenderConfig} {packets : List GoBackNMessageStruct} {low next expected : Int}
  {sys : System}

theorem Situation.ranges (h : Situation cfg packets low next expected sys) :
    0 ≤ low ∧ low ≤ expected ∧ expected ≤ packets.length ∧ 0 ≤ next ∧ next ≤ packets.length ∧
      next ≤ max 0 (low - 1) + cfg.window := by
  obtain ⟨s, hs, rfl, rfl⟩ := h.sender
  have hnext := h.inv.inv.next s hs
  have hlast := h.inv.inv.lastAck s hs
  have hrange := h.inv.inv.expectedRange
  have hacked := h.inv.inv.acknowledged s hs
  have hmin := (h.inv.inv.holds s hs).minNonneg
  have hexpected := h.expected
  omega

/-- A round of the sender takes a situation to the one it computes. -/
theorem Situation.senderRound (hp : PacketList packets) (hwindow : 1 ≤ cfg.window)
    (h : Situation cfg packets low next expected sys) {s s' : Sender} {expired : Bool}
    {input : IterationInput} {sent : List GoBackNMessageStruct} {goal : System → Prop}
    (hs : sys.sender = some s) (hloop : low < packets.length)
    (hround : senderIteration cfg expired input s = some (s', sent))
    (hread : ∀ ack, input.readable = some ack → ack ∈ sys.ackChannel)
    (htimer : ∀ t, handleReadable s input = some t → generousTimer sys t input.now expired)
    (hgoal : Situation cfg packets s'.dataBuffer.minSeqNo s'.nextSendSeqNo expected
      (sys.afterSender input (some (s', sent))) → goal (sys.afterSender input (some (s', sent)))) :
    Reaches (LossFreeStep cfg) sys goal := by
  have hsize := (h.inv.inv.holds s hs).bufferSize
  obtain ⟨_, hs', rfl, rfl⟩ := h.sender
  rw [hs] at hs'
  cases hs'
  have hstep : Step cfg generousTimer sys (.senderRound expired input)
      (sys.afterSender input (senderIteration cfg expired input s)) :=
    .senderRound hs (by omega) hread htimer
  rw [hround] at hstep
  have hfree : LossFree sys (.senderRound expired input) := trivial
  refine .of_step ⟨hfree, hstep⟩ (hgoal ⟨?_, ⟨s', rfl, rfl, rfl⟩, h.expected⟩)
  exact progressInv_step hp hwindow h.inv hstep

/-- A round in which the sender sends up to the number `target`. -/
theorem Situation.advance (hp : PacketList packets) (hwindow : 1 ≤ cfg.window)
    (h : Situation cfg packets low next expected sys) (target : Int) (hlow : low ≤ next)
    (htarget : next ≤ target) (hin : target ≤ max 0 (low - 1) + cfg.window)
    (hlt : target ≤ packets.length) (hloop : low < packets.length) :
    Reaches (LossFreeStep cfg) sys fun sys' => Situation cfg packets low target expected sys' ∧
      (∀ seqNo, AckInFlight sys seqNo → AckInFlight sys' seqNo) ∧
      (∀ seqNo, PacketInFlight sys seqNo → PacketInFlight sys' seqNo) ∧
      ∀ seqNo, next ≤ seqNo → seqNo < target → PacketInFlight sys' seqNo := by
  rcases htarget.eq_or_lt with rfl | htarget
  · exact .here ⟨h, fun _ => id, fun _ => id, fun _ _ _ => by omega⟩
  obtain ⟨s, hs, rfl, rfl⟩ := h.sender
  have hholds := h.inv.inv.holds s hs
  have hlast := h.inv.inv.lastAck s hs
  have hnonneg := (h.inv.inv.next s hs).1
  let clock : List Timeval := List.replicate (target - s.nextSendSeqNo).toNat ⟨0, 0⟩
  have hlength : (clock.length : Int) = target - s.nextSendSeqNo := by
    rw [List.length_replicate]
    omega
  obtain ⟨s', sent, hsend, hnext⟩ := sendLoop_count hholds cfg hlow clock
    (by omega) (by omega)
  have hround : senderIteration cfg false ⟨none, true, ⟨0, 0⟩, clock⟩ s = some (s', sent) := by
    simp only [senderIteration, beforeSend, handleReadable, Option.bind_some, Bool.false_eq_true,
      if_false, (hholds.selectGuard_iff cfg).mpr ⟨by omega, by omega⟩, Bool.and_self, if_true, hsend]
  obtain ⟨count, hsent⟩ := sendLoop_spec hholds hnonneg clock hsend
  refine h.senderRound hp hwindow hs hloop hround (by rintro _ ⟨⟩)
    (by rintro _ _ ⟨⟩) fun hsit => ?_
  rw [hsent.minSeqNo, hnext, hlength, add_sub_cancel] at hsit
  refine ⟨hsit, fun _ => id, ?_, fun seqNo hle hbelow => ?_⟩
  · rintro seqNo ⟨p, hpdata, hgood⟩
    exact ⟨p, List.mem_append_left _ hpdata, hgood⟩
  · obtain ⟨p, hpsent, hmem, hseq⟩ := hsent.exists_sent hp hnonneg hle (by omega)
    exact ⟨p, List.mem_append_right _ hpsent, hp.undamaged p hmem, hseq⟩

/-- A round in which the timeout branch is taken and nothing is sent. -/
theorem Situation.timeout (hp : PacketList packets) (hwindow : 1 ≤ cfg.window)
    (h : Situation cfg packets low next expected sys) (hloop : low < packets.length)
    (hsent : ∃ p ∈ sys.sent, low ≤ p.seqNo) :
    Reaches (LossFreeStep cfg) sys fun sys' =>
      Situation cfg packets low (max 0 (low - 1) + 1) expected sys' ∧
      (∀ seqNo, AckInFlight sys seqNo → AckInFlight sys' seqNo) ∧
      ∀ seqNo, PacketInFlight sys seqNo → PacketInFlight sys' seqNo := by
  obtain ⟨s, hs, rfl, rfl⟩ := h.sender
  have hholds := h.inv.inv.holds s hs
  have hlast := h.inv.inv.lastAck s hs
  obtain ⟨s', htimeout, -, hmin, -, hnext⟩ := hholds.handleTimeout_eq
  have hround : senderIteration cfg true ⟨none, false, ⟨0, 0⟩, []⟩ s = some (s', []) := by
    simp only [senderIteration, beforeSend, handleReadable, Option.bind_some, if_true, htimeout,
      Bool.and_false, Bool.false_eq_true, if_false]
  have htimer : ∀ t, handleReadable s ⟨none, false, ⟨0, 0⟩, []⟩ = some t →
      generousTimer sys t ⟨0, 0⟩ true := by
    rintro _ ⟨⟩ -
    exact (unacknowledgedSent_iff h.inv.inv hholds hp).mpr hsent
  refine h.senderRound hp hwindow hs hloop hround (by rintro _ ⟨⟩) htimer
    fun hsit => ?_
  rw [hmin, hnext, hlast] at hsit
  refine ⟨hsit, fun _ => id, ?_⟩
  rintro seqNo ⟨p, hpdata, hgood⟩
  exact ⟨p, List.mem_append_left _ hpdata, hgood⟩

/-- A round in which the sender reads an acknowledgement of packets in its buffer. -/
theorem Situation.readAck (hp : PacketList packets) (hwindow : 1 ≤ cfg.window)
    (h : Situation cfg packets low next expected sys) (seqNo : Int) (hlow : low < seqNo)
    (hflight : AckInFlight sys seqNo) :
    Reaches (LossFreeStep cfg) sys fun sys' => Situation cfg packets seqNo next expected sys' := by
  obtain ⟨s, hs, rfl, rfl⟩ := h.sender
  have hholds := h.inv.inv.holds s hs
  have hlast := h.inv.inv.lastAck s hs
  have hrange := h.inv.inv.expectedRange
  obtain ⟨ack, hack, herr, rfl⟩ := hflight
  have hbound := h.inv.inv.ackExpected ack hack herr
  obtain ⟨s', hfree, -, hmin, -, hnext⟩ :=
    hholds.handleAck_free herr (by omega) hlow (by omega)
  have hround : senderIteration cfg false ⟨some ack, false, ⟨0, 0⟩, []⟩ s = some (s', []) := by
    simp only [senderIteration, beforeSend, handleReadable, hfree, Option.bind_some,
      Bool.false_eq_true, if_false, Bool.and_false]
  refine h.senderRound hp hwindow hs (by omega) hround ?_ (by rintro _ _ ⟨⟩)
    fun hsit => ?_
  · rintro _ ⟨⟩
    exact hack
  · rwa [hmin, hnext] at hsit

/-- A round in which the receiver accepts the packet it expects. -/
theorem Situation.receive (hp : PacketList packets) (hwindow : 1 ≤ cfg.window)
    (h : Situation cfg packets low next expected sys) (hflight : PacketInFlight sys expected) :
    Reaches (LossFreeStep cfg) sys fun sys' =>
      Situation cfg packets low next (expected + 1) sys' ∧ AckInFlight sys' (expected + 1) := by
  obtain ⟨p, hpdata, herr, hseq⟩ := hflight
  have hstep : Step cfg generousTimer sys (.receiverRound p) (sys.afterReceiver p) :=
    .receiverRound h.inv.inv.running hpdata
  have hinv := progressInv_step hp hwindow h.inv hstep
  have hexpected := h.expected
  have haccept := receiverIteration_accept (h.inv.inv.dataWhole p hpdata) herr
    (show p.seqNo = sys.receiver.expected by omega)
  have hfree : LossFree sys (.receiverRound p) := trivial
  refine .of_step ⟨hfree, hstep⟩ ⟨⟨hinv, h.sender, ?_⟩, ?_⟩
  · rw [System.afterReceiver, haccept, ← hseq]
    rfl
  · rw [System.afterReceiver, haccept]
    exact ⟨sendAck p (p.seqNo + 1), List.mem_append_right _ (List.mem_singleton.mpr rfl), rfl,
      congrArg (· + 1) hseq⟩

/-- The expected packet is in flight and `nextSendSeqNo` is past it: it is received and its
acknowledgement is read. -/
theorem Situation.deliver (hp : PacketList packets) (hwindow : 1 ≤ cfg.window)
    (h : Situation cfg packets low next expected sys) (hflight : PacketInFlight sys expected) :
    Reaches (LossFreeStep cfg) sys fun sys' =>
      Situation cfg packets (expected + 1) next (expected + 1) sys' := by
  have hrange := h.ranges
  refine (h.receive hp hwindow hflight).trans ?_
  rintro sys' ⟨h', hack⟩
  exact h'.readAck hp hwindow _ (by omega) hack

/-- The sender gets `nextSendSeqNo` between the lower end of its buffer and the expected packet. -/
theorem Situation.rewind (hp : PacketList packets) (hwindow : 1 ≤ cfg.window)
    (h : Situation cfg packets low next expected sys) (hmissing : expected < packets.length)
    (hrecover : low ≤ next ∨ ∃ p ∈ sys.sent, low ≤ p.seqNo) (hfresh : expected = 0 → next = 0) :
    Reaches (LossFreeStep cfg) sys fun sys' =>
      (∃ k, low ≤ k ∧ k ≤ expected ∧ Situation cfg packets low k expected sys') ∧
      ∀ seqNo, AckInFlight sys seqNo → AckInFlight sys' seqNo := by
  have hrange := h.ranges
  by_cases hbetween : low ≤ next ∧ next ≤ expected
  · exact .here ⟨⟨next, hbetween.1, hbetween.2, h⟩, fun _ => id⟩
  · have hsent : ∃ p ∈ sys.sent, low ≤ p.seqNo := by
      rcases hrecover with hle | hsent
      · obtain ⟨s, hs, rfl, rfl⟩ := h.sender
        obtain ⟨p, hpsent, hseq⟩ := h.inv.sentBelow s hs expected (by omega) (by omega)
        exact ⟨p, hpsent, by omega⟩
      · exact hsent
    refine (h.timeout hp hwindow (by omega) hsent).trans ?_
    rintro sys' ⟨h', hacks, -⟩
    exact .here ⟨⟨_, by omega, by omega, h'⟩, hacks⟩

/-- Once the sender and the receiver agree, the remaining packets are sent one by one. -/
theorem Situation.completes_of_aligned (hp : PacketList packets) (hwindow : 2 ≤ cfg.window)
    (h : Situation cfg packets low next low sys) (hpos : 1 ≤ low) (hle : low ≤ next) :
    Reaches (LossFreeStep cfg) sys Completed := by
  have hwindow' : 1 ≤ cfg.window := by omega
  induction hm : (packets.length - low).toNat generalizing low next sys with
  | zero =>
      have hrange := h.ranges
      obtain ⟨s, hs, rfl, rfl⟩ := h.sender
      exact .here ((completed_iff h.inv.inv hs).mpr (by omega))
  | succ m ih =>
      have hrange := h.ranges
      have hback : Reaches (LossFreeStep cfg) sys fun sys' => Situation cfg packets low low low sys' := by
        rcases hle.eq_or_lt with rfl | hlt
        · exact .here h
        · have hsent : ∃ p ∈ sys.sent, low ≤ p.seqNo := by
            obtain ⟨s, hs, rfl, rfl⟩ := h.sender
            obtain ⟨p, hpsent, hseq⟩ := h.inv.sentBelow s hs _ (by omega) hlt
            exact ⟨p, hpsent, hseq.ge⟩
          refine (h.timeout hp hwindow' (by omega) hsent).trans ?_
          rintro sys' ⟨h', -⟩
          rw [show max 0 (low - 1) + 1 = low by omega] at h'
          exact .here h'
      refine hback.trans fun sys₁ h₁ => ?_
      refine (h₁.advance hp hwindow' (low + 1) le_rfl (by omega) (by omega) (by omega)
        (by omega)).trans ?_
      rintro sys₂ ⟨h₂, -, -, hflight⟩
      refine (h₂.deliver hp hwindow' (hflight low le_rfl (by omega))).trans fun sys₃ h₃ => ?_
      exact ih h₃ (by omega) le_rfl (by omega)

theorem Situation.completes_of_window (hp : PacketList packets) (hwindow : 2 ≤ cfg.window)
    (h : Situation cfg packets low next expected sys) (hmissing : expected < packets.length)
    (hrecover : low ≤ next ∨ ∃ p ∈ sys.sent, low ≤ p.seqNo) (hfresh : expected = 0 → next = 0)
    (hin : expected < max 0 (low - 1) + cfg.window) :
    Reaches (LossFreeStep cfg) sys Completed := by
  have hwindow' : 1 ≤ cfg.window := by omega
  have hrange := h.ranges
  refine (h.rewind hp hwindow' hmissing hrecover hfresh).trans ?_
  rintro sys₁ ⟨⟨k, hlow, hle, h₁⟩, -⟩
  refine (h₁.advance hp hwindow' (expected + 1) hlow (by omega) (by omega) (by omega)
    (by omega)).trans ?_
  rintro sys₂ ⟨h₂, -, -, hflight⟩
  refine (h₂.deliver hp hwindow' (hflight expected hle (by omega))).trans fun sys₃ h₃ => ?_
  exact h₃.completes_of_aligned hp hwindow (by omega) le_rfl

/-- A state that meets the condition is completed by loss-free steps. -/
theorem completes_of_canComplete (hp : PacketList packets) (hwindow : 2 ≤ cfg.window)
    (hinv : ProgressInv cfg packets sys) (hcan : CanComplete cfg sys) :
    Reaches (LossFreeStep cfg) sys Completed := by
  have hwindow' : 1 ≤ cfg.window := by omega
  obtain ⟨s, hs, hcan⟩ := hcan
  have h : Situation cfg packets s.dataBuffer.minSeqNo s.nextSendSeqNo sys.receiver.expected sys :=
    ⟨hinv, ⟨s, hs, rfl, rfl⟩, rfl⟩
  have hrange := h.ranges
  have hholds := hinv.inv.holds s hs
  have hveryLast := hholds.veryLast
  have hlast := hinv.inv.lastAck s hs
  rcases hcan with hfinal | ⟨hmissing, hrecover, hpacket⟩
  · rw [hveryLast, Int.sub_add_cancel] at hfinal
    by_cases hdone : s.dataBuffer.minSeqNo = packets.length
    · exact .here ((completed_iff hinv.inv hs).mpr hdone)
    · refine (h.readAck hp hwindow' _ (by omega) hfinal).trans fun sys' h' => ?_
      obtain ⟨s', hs', hmin, -⟩ := h'.sender
      exact .here ((completed_iff h'.inv.inv hs').mpr hmin)
  · rw [unacknowledgedSent_iff hinv.inv hholds hp] at hrecover
    change s.dataBuffer.minSeqNo ≤ s.nextSendSeqNo ∨ _ at hrecover
    rcases hpacket with hflight | ⟨hfresh, hin | ⟨seqNo, hack, hin⟩⟩
    · by_cases hpast : sys.receiver.expected < s.nextSendSeqNo
      · refine (h.deliver hp hwindow' hflight).trans fun sys' h' => ?_
        exact h'.completes_of_aligned hp hwindow (by omega) (by omega)
      · obtain ⟨p, hpdata, herr, hseq⟩ := hflight
        have hsentWindow := hinv.inv.sentWindow s hs p (hinv.inv.dataSent p hpdata herr)
        exact h.completes_of_window hp hwindow (by omega) hrecover (by omega) (by omega)
    · exact h.completes_of_window hp hwindow (by omega) hrecover hfresh (by omega)
    · by_cases hinside : sys.receiver.expected < s.lastAckSeqNo + cfg.window
      · exact h.completes_of_window hp hwindow (by omega) hrecover hfresh (by omega)
      -- the window is used up: everything below the expected packet has been sent
      obtain ⟨p, hpsent, hseq⟩ := hinv.inv.expectedSent (sys.receiver.expected - 1) (by omega) (by omega)
      have hsentWindow := hinv.inv.sentWindow s hs p hpsent
      have hnew : s.dataBuffer.minSeqNo < seqNo := by
        clear hrecover
        omega
      refine (h.rewind hp hwindow' (by omega) hrecover hfresh).trans ?_
      rintro sys₁ ⟨⟨k, hlow, hle, h₁⟩, hacks⟩
      refine (h₁.advance hp hwindow' _ hlow hle (by omega) (by omega) (by omega)).trans ?_
      rintro sys₂ ⟨h₂, hacks', -⟩
      refine (h₂.readAck hp hwindow' seqNo hnew (hacks' _ (hacks _ hack))).trans fun sys₃ h₃ => ?_
      have hrange' := h₃.ranges
      exact h₃.completes_of_window hp hwindow (by omega) (.inl (by omega)) (by omega) (by omega)

end Rounds

/-- **Which losses strand a transfer.** With a window of at least two packets and the generous timer,
a transfer whose buffer is not empty can be completed without further losses exactly when the last
acknowledgement is in flight, or the packet that the receiver expects is in flight or can still be
sent. -/
theorem completes_iff_canComplete (tr : Transfer) (hwindow : 2 ≤ tr.cfg.window) (sys : System)
    (h : tr.Reachable generousTimer sys) (hopen : ¬Completed sys) :
    Reaches (LossFreeStep tr.cfg) sys Completed ↔ CanComplete tr.cfg sys := by
  have hinv := tr.progressInv h
  constructor
  · intro hreach
    exact (canComplete_of_reaches tr.packetList tr.window_pos hinv hreach).resolve_left hopen
  · exact completes_of_canComplete tr.packetList hwindow hinv

theorem completes_iff_canComplete_oneByte :
    Reaches (LossFreeStep oneByteTransfer.cfg) oneByteTransfer.start Completed := by
  refine (completes_iff_canComplete oneByteTransfer (by decide) _ ⟨[], .nil _⟩ ?_).mpr ?_
  · rintro ⟨_, ⟨⟩, hempty⟩
    exact absurd hempty (by decide)
  · exact ⟨_, rfl, .inr ⟨by decide, .inl (by decide), .inr ⟨fun _ => rfl, .inl (by decide)⟩⟩⟩

/-! ### Two losses that strand the transfer of one byte -/

/-- Both packets have arrived, and the acknowledgement of the last one is lost. -/
def oneByteLastAckLost : System :=
  let received := (oneByteSent.afterReceiver (oneBytePacket 0 [7])).afterReceiver (oneBytePacket 1 [])
  { received with ackChannel := received.ackChannel.erase (sendAck (oneBytePacket 1 []) 2) }

/-- Both packets have been sent, and the first one is lost. -/
def oneByteFirstLost : System :=
  { oneByteSent with dataChannel := oneByteSent.dataChannel.erase (oneBytePacket 0 [7]) }

theorem oneByteSent_generous :
    Step oneByteTransfer.cfg generousTimer oneByteTransfer.start (.senderRound false sendTwo)
      oneByteSent :=
  .senderRound rfl (by decide) (by rintro _ ⟨⟩) (by rintro _ _ ⟨⟩)

theorem oneByteLastAckLost_reachable :
    oneByteTransfer.Reachable generousTimer oneByteLastAckLost := by
  refine ⟨_, .cons oneByteSent_generous (.cons (.receiverRound rfl ?_) (.cons (.receiverRound rfl ?_)
    (.single (.dropAck ?_))))⟩
  all_goals decide +kernel

theorem oneByteFirstLost_reachable :
    oneByteTransfer.Reachable generousTimer oneByteFirstLost := by
  refine ⟨_, .cons oneByteSent_generous (.single (.dropData ?_))⟩
  decide +kernel

/-- A state of `oneByteTransfer` that meets none of the conditions is stranded. -/
theorem oneByte_stranded {sys : System} (h : oneByteTransfer.Reachable generousTimer sys)
    (hsender : ∀ s ∈ sys.sender, 0 < getBufferSize s.dataBuffer ∧
      (∀ ack ∈ sys.ackChannel, ack.seqNoExpected ≠ s.veryLastSeqNo + 1) ∧
      (sys.receiver.expected ≤ s.veryLastSeqNo →
        (∀ p ∈ sys.dataChannel, p.seqNo ≠ sys.receiver.expected) ∧
          sys.receiver.expected = 0 ∧ s.nextSendSeqNo ≠ 0)) :
    ¬Reaches (LossFreeStep oneByteTransfer.cfg) sys Completed := by
  intro hreach
  rcases canComplete_of_reaches oneByteTransfer.packetList oneByteTransfer.window_pos
    (oneByteTransfer.progressInv h) hreach with ⟨s, hs, hempty⟩ | ⟨s, hs, hcan⟩
  · have := (hsender s hs).1
    omega
  · obtain ⟨-, hack, hmissing⟩ := hsender s hs
    rcases hcan with ⟨ack, hmem, -, hseq⟩ | ⟨hle, -, ⟨p, hmem, -, hseq⟩ | ⟨hfresh, -⟩⟩
    · exact hack ack hmem hseq
    · exact (hmissing hle).1 p hmem hseq
    · exact (hmissing hle).2.2 (hfresh (hmissing hle).2.1)

/-- With both packets received, the loss of the last acknowledgement leaves a sender that never
empties its buffer; so does the loss of packet 0, which is never sent again. -/
theorem lost_message_strands :
    (oneByteTransfer.Reachable generousTimer oneByteLastAckLost ∧
      (∃ s, oneByteLastAckLost.sender = some s ∧ 0 < getBufferSize s.dataBuffer) ∧
      ¬Reaches (LossFreeStep oneByteTransfer.cfg) oneByteLastAckLost Completed) ∧
    (oneByteTransfer.Reachable generousTimer oneByteFirstLost ∧
      (∃ s, oneByteFirstLost.sender = some s ∧ 0 < getBufferSize s.dataBuffer) ∧
      ¬Reaches (LossFreeStep oneByteTransfer.cfg) oneByteFirstLost Completed) := by
  refine ⟨⟨oneByteLastAckLost_reachable, ?_, oneByte_stranded oneByteLastAckLost_reachable ?_⟩,
    oneByteFirstLost_reachable, ?_, oneByte_stranded oneByteFirstLost_reachable ?_⟩
  · exact ⟨oneByteLastAckLost.sender.get (by decide +kernel), (Option.some_get _).symm,
      by decide +kernel⟩
  · decide +kernel
  · exact ⟨oneByteFirstLost.sender.get (by decide +kernel), (Option.some_get _).symm,
      by decide +kernel⟩
  · decide +kernel

end ComputerNetworking.GoBackN
