import ComputerNetworking.GoBackNSafety

/-! The sender sends only packets it still holds, as long as no acknowledgement overtakes
`nextSendSeqNo`.

The timeout branch moves `nextSendSeqNo` back; an acknowledgement for packets sent before the timeout
then moves the lower end of the buffer past it. Runs without such an acknowledgement are safe, and
`oneByteTransfer` has a run with one in which the sender follows a `NULL` pointer. -/

namespace ComputerNetworking.GoBackN

open Transition

/-- `nextSendSeqNo` is not below the buffer, and the packet the send loop is about to send is
there. -/
def SendsBuffered (cfg : SenderConfig) (s : Sender) : Prop :=
  getFirstSeqNoOfBuffer s.dataBuffer ≤ s.nextSendSeqNo ∧
    (sendGuard cfg s = true →
      ∃ d, getDataPacketFromBuffer s.dataBuffer s.nextSendSeqNo = .live d)

/-- The acknowledgement read in a round, if it is undamaged and new, is for packets below
`nextSendSeqNo`. -/
def NotOvertaken (s : Sender) (input : IterationInput) : Prop :=
  ∀ ack, input.readable = some ack → ack.hasErrors = false →
    s.lastAckSeqNo < ack.seqNoExpected → ack.seqNoExpected ≤ s.nextSendSeqNo

/-- The step is no round of the sender that reads an acknowledgement beyond `nextSendSeqNo`. -/
def NoOvertaking (sys : System) : Action → Prop
  | .senderRound _ input => ∀ s, sys.sender = some s → NotOvertaken s input
  | _ => True

section Round

variable {cfg : SenderConfig} {packets : List GoBackNMessageStruct} {s t u : Sender}
  {input : IterationInput} {expired : Bool}

theorem sendsBuffered_iff (h : SenderHolds packets s) :
    SendsBuffered cfg s ↔ s.dataBuffer.minSeqNo ≤ s.nextSendSeqNo := by
  refine ⟨fun hs => hs.1, fun hmin => ⟨hmin, fun hguard => ?_⟩⟩
  rw [h.sendGuard_iff] at hguard
  obtain ⟨d, hget, -⟩ := h.get_live hmin hguard.2
  exact ⟨d, hget⟩

/-- Handling an acknowledgement leaves `nextSendSeqNo` in the buffer exactly when it does not
overtake it. -/
theorem ackHandled_min_le_iff (hlast : s.lastAckSeqNo = max 0 (s.dataBuffer.minSeqNo - 1))
    (hmin : s.dataBuffer.minSeqNo ≤ s.nextSendSeqNo) (hack : AckHandled packets s input t) :
    t.dataBuffer.minSeqNo ≤ t.nextSendSeqNo ↔ NotOvertaken s input := by
  cases hack with
  | ignored hold =>
      refine iff_of_true hmin fun ack hread herr hnew => ?_
      rcases hold ack hread with h | h
      · rw [herr] at h
        cases h
      · omega
  | freed ack hread herr hnew _ _ hminSeqNo _ hnext =>
      constructor
      · intro hle ack' hread' _ _
        rw [hread] at hread'
        cases hread'
        omega
      · intro hnot
        have := hnot ack hread herr hnew
        omega

theorem timeoutHandled_min_le (hlast : t.lastAckSeqNo = max 0 (t.dataBuffer.minSeqNo - 1))
    (hmin : t.dataBuffer.minSeqNo ≤ t.nextSendSeqNo) (htime : TimeoutHandled packets expired t u) :
    u.dataBuffer.minSeqNo ≤ u.nextSendSeqNo := by
  cases htime <;> omega

end Round

section Runs

variable {cfg : SenderConfig} {packets : List GoBackNMessageStruct} {sys : System} {s t : Sender}
  {input : IterationInput} {expired : Bool}

/-- The sender comes to its send loop with `nextSendSeqNo` in the buffer. -/
theorem beforeSend_min_le (h : SystemInv cfg packets sys) (hs : sys.sender = some s)
    (hmin : s.dataBuffer.minSeqNo ≤ s.nextSendSeqNo)
    (hread : ∀ ack, input.readable = some ack → ack ∈ sys.ackChannel) (hnot : NotOvertaken s input)
    (hbefore : beforeSend expired input s = some t) :
    SenderHolds packets t ∧ t.dataBuffer.minSeqNo ≤ t.nextSendSeqNo := by
  have hholds := h.holds s hs
  have hlast := h.lastAck s hs
  obtain ⟨u, -, hack, htime⟩ := beforeSend_spec hholds (ackBounded_of_inv h hread) hbefore
  refine ⟨htime.holds (hack.holds hholds), ?_⟩
  exact timeoutHandled_min_le (ackHandled_lastAck hlast hholds.minNonneg hack)
    ((ackHandled_min_le_iff hlast hmin hack).mpr hnot) htime

/-- The invariant of the runs in which no acknowledgement overtakes. -/
structure WindowInv (cfg : SenderConfig) (packets : List GoBackNMessageStruct) (sys : System) :
    Prop where
  inv : SystemInv cfg packets sys
  buffered : ∀ s, sys.sender = some s → s.dataBuffer.minSeqNo ≤ s.nextSendSeqNo

theorem windowInv_step (hp : PacketList packets) (hwindow : 1 ≤ cfg.window) {rule : TimerRule}
    {a : Action} {sys' : System} (h : WindowInv cfg packets sys)
    (hstep : Guarded NoOvertaking (Step cfg rule) sys a sys') : WindowInv cfg packets sys' := by
  obtain ⟨hcond, hstep⟩ := hstep
  refine ⟨inv_step hp hwindow h.inv hstep, ?_⟩
  cases hstep with
  | @senderRound s expired input hs _ hread _ =>
      have hholds := h.inv.holds s hs
      have hlast := h.inv.lastAck s hs
      intro s' hs'
      cases hround : senderIteration cfg expired input s with
      | none =>
          rw [hround] at hs'
          cases hs'
      | some result =>
          obtain ⟨r, sent⟩ := result
          rw [hround] at hs'
          cases hs'
          obtain ⟨t, u, count, -, hack, htime, hsent⟩ := senderIteration_spec hholds
            (ackBounded_of_inv h.inv hread) (h.inv.next s hs).1 (by omega) hround
          have hu := timeoutHandled_min_le (ackHandled_lastAck hlast hholds.minNonneg hack)
            ((ackHandled_min_le_iff hlast (h.buffered s hs) hack).mpr (hcond s hs)) htime
          have hmin := hsent.minSeqNo
          have hnext := hsent.nextSendSeqNo
          omega
  | receiverRound => exact h.buffered
  | _ => exact h.buffered

end Runs

theorem Transfer.windowInv (tr : Transfer) {rule : TimerRule} {actions : List Action} {sys : System}
    (hrun : Run (Guarded NoOvertaking (Step tr.cfg rule)) tr.start actions sys) :
    WindowInv tr.cfg tr.packets sys := by
  apply hrun.invariant (fun _ _ _ h hstep => windowInv_step tr.packetList tr.window_pos h hstep)
  refine ⟨systemInv_start tr, ?_⟩
  rintro s ⟨⟩
  have hmin := (readFileIntoBuffer_some tr.cfg tr.heap tr.accepted).2.1
  change tr.dataBuffer.minSeqNo ≤ 0
  omega

/-- **The sender holds what it sends.** In every state of a run in which no acknowledgement overtakes
`nextSendSeqNo`, the sender holds the packet it would send; the same is true when it comes to its send
loop in a further round of this kind, and the send loop then runs through. After a round has handled
its acknowledgement, `nextSendSeqNo` is in the buffer exactly when it was not overtaken. -/
theorem sends_buffered (tr : Transfer) (rule : TimerRule) (actions : List Action) (sys : System)
    (hrun : Run (Guarded NoOvertaking (Step tr.cfg rule)) tr.start actions sys) (s : Sender)
    (hs : sys.sender = some s) :
    SendsBuffered tr.cfg s ∧
      ∀ input, (∀ ack, input.readable = some ack → ack ∈ sys.ackChannel) →
        (∀ t, handleReadable s input = some t →
          (getFirstSeqNoOfBuffer t.dataBuffer ≤ t.nextSendSeqNo ↔ NotOvertaken s input)) ∧
        ∀ expired t, NotOvertaken s input → beforeSend expired input s = some t →
          SendsBuffered tr.cfg t ∧ ∃ s' sent, sendLoop tr.cfg input.clock t = some (s', sent) := by
  have h := tr.windowInv hrun
  have hholds := h.inv.holds s hs
  have hmin := h.buffered s hs
  refine ⟨(sendsBuffered_iff hholds).mpr hmin, fun input hread => ⟨fun t ht => ?_, ?_⟩⟩
  · exact ackHandled_min_le_iff (h.inv.lastAck s hs) hmin
      (handleReadable_spec hholds (ackBounded_of_inv h.inv hread) ht)
  · intro expired t hnot hbefore
    obtain ⟨holds, hle⟩ := beforeSend_min_le h.inv hs hmin hread hnot hbefore
    exact ⟨(sendsBuffered_iff holds).mpr hle, sendLoop_isSome holds hle input.clock⟩

theorem sends_buffered_oneByte :
    ∃ s, oneByteSent.sender = some s ∧ SendsBuffered oneByteTransfer.cfg s := by
  have hguard : NoOvertaking oneByteTransfer.start (.senderRound false sendTwo) :=
    fun _ _ _ h => by cases h
  refine ⟨oneByteSent.sender.get (by decide +kernel), (Option.some_get _).symm, ?_⟩
  exact (sends_buffered oneByteTransfer codeTimer _ oneByteSent
    (.single ⟨hguard, oneByteSent_step⟩) _ (Option.some_get _).symm).1

/-! ### The run in which an acknowledgement overtakes -/

/-- Both packets have arrived and two acknowledgements are in flight. -/
def oneByteReceived : System :=
  (oneByteSent.afterReceiver (oneBytePacket 0 [7])).afterReceiver (oneBytePacket 1 [])

/-- A round that reads the acknowledgement of the first packet. -/
def readFirst : IterationInput := ⟨some (sendAck (oneBytePacket 0 [7]) 1), false, ⟨2, 0⟩, []⟩

/-- A round after the timeout of ten seconds, in which nothing is read. -/
def readNothing : IterationInput := ⟨none, true, ⟨12, 0⟩, []⟩

/-- A round that reads the acknowledgement of the second packet and may send. -/
def readSecond : IterationInput := ⟨some (sendAck (oneBytePacket 1 []) 2), true, ⟨13, 0⟩, []⟩

/-- The sender of a state of `oneByteTransfer` in which it runs. -/
def oneByteSender (sys : System) : Sender :=
  sys.sender.getD (initialSender oneByteTransfer.dataBuffer oneByteTransfer.veryLastSeqNo)

/-- The state of `oneByteTransfer` after a round of the sender. -/
def oneByteRound (sys : System) (expired : Bool) (input : IterationInput) : System :=
  sys.afterSender input (senderIteration oneByteTransfer.cfg expired input (oneByteSender sys))

def oneByteAcked : System := oneByteRound oneByteReceived false readFirst

def oneByteExpired : System := oneByteRound oneByteAcked true readNothing

/-- A round of the sender of `oneByteTransfer` with the timer of the code, from what can be
evaluated. -/
theorem oneByteRound_step {sys : System} {t : Sender} {expired : Bool} {input : IterationInput}
    (hs : sys.sender = some (oneByteSender sys))
    (hloop : 0 < getBufferSize (oneByteSender sys).dataBuffer)
    (hread : ∀ ack ∈ input.readable, ack ∈ sys.ackChannel)
    (ht : handleReadable (oneByteSender sys) input = some t)
    (htimer : expired = timerLt t.timerExpiration input.now) :
    Step oneByteTransfer.cfg codeTimer sys (.senderRound expired input)
      (oneByteRound sys expired input) := by
  refine .senderRound hs hloop hread fun t' ht' => ?_
  rw [ht] at ht'
  cases ht'
  exact htimer

theorem oneByteExpired_reachable : oneByteTransfer.Reachable codeTimer oneByteExpired := by
  have hacked : handleReadable (oneByteSender oneByteReceived) readFirst =
      some { oneByteSender oneByteAcked with } := by decide +kernel
  refine ⟨_, .cons oneByteSent_step (.cons (.receiverRound rfl ?_) (.cons (.receiverRound rfl ?_)
    (.cons (oneByteRound_step ?_ ?_ ?_ hacked ?_) (.single (oneByteRound_step ?_ ?_ ?_ rfl ?_)))))⟩
  all_goals decide +kernel

/-- The sender of the run above when it comes to its send loop once more. -/
def oneByteOvertaken : Sender :=
  (beforeSend false readSecond (oneByteSender oneByteExpired)).getD (oneByteSender oneByteExpired)

/-- In a reachable state of the code with its own timer the sender reads an acknowledgement, comes to
its send loop with `nextSendSeqNo` below the buffer, and ends following a `NULL` pointer. -/
theorem sends_missing_packet :
    oneByteTransfer.Reachable codeTimer oneByteExpired ∧
      oneByteExpired.sender = some (oneByteSender oneByteExpired) ∧
      beforeSend false readSecond (oneByteSender oneByteExpired) = some oneByteOvertaken ∧
      oneByteOvertaken.nextSendSeqNo < getFirstSeqNoOfBuffer oneByteOvertaken.dataBuffer ∧
      sendGuard oneByteTransfer.cfg oneByteOvertaken = true ∧
      getDataPacketFromBuffer oneByteOvertaken.dataBuffer oneByteOvertaken.nextSendSeqNo = .null ∧
      Step oneByteTransfer.cfg codeTimer oneByteExpired (.senderRound false readSecond)
        { oneByteExpired with sender := none, ackChannel := [] } := by
  have hround : oneByteRound oneByteExpired false readSecond =
      { oneByteExpired with sender := none, ackChannel := [] } := by decide +kernel
  refine ⟨oneByteExpired_reachable, by decide +kernel, by decide +kernel, by decide +kernel,
    by decide +kernel, by decide +kernel, ?_⟩
  rw [← hround]
  refine oneByteRound_step (t := oneByteOvertaken) ?_ ?_ ?_ ?_ ?_
  all_goals decide +kernel

end ComputerNetworking.GoBackN
