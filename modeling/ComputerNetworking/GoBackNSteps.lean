import ComputerNetworking.GoBackNTimer

/-! The sender between two points of its main loop.

A step is the handling of one message, a timeout or one `send`. The states that the steps lead to are
those at the head of the main loop and at every point inside it. The messages are arbitrary, as long as
they acknowledge packets of the file. -/

namespace ComputerNetworking.GoBackN

open Transition

inductive SenderAction where
  | read (ack : GoBackNMessageStruct)
  | expire (now : Timeval)
  | send (now : Timeval)
  deriving DecidableEq, Repr

/-- The steps of the sender, each under the condition that the main loop has for it. -/
inductive SenderStep (cfg : SenderConfig) : Sender → SenderAction → Sender → Prop where
  | read {s s' : Sender} {ack : GoBackNMessageStruct} (hloop : 0 < getBufferSize s.dataBuffer)
      (hbound : ack.hasErrors = false → ack.seqNoExpected ≤ s.veryLastSeqNo + 1)
      (hack : handleAck s ack = some s') : SenderStep cfg s (.read ack) s'
  | expire {s s' : Sender} {now : Timeval} (htimer : timerLt s.timerExpiration now = true)
      (htimeout : handleTimeout s = some s') : SenderStep cfg s (.expire now) s'
  | send {s s' : Sender} {d : DataPacket} {now : Timeval} (hguard : sendGuard cfg s = true)
      (hget : getDataPacketFromBuffer s.dataBuffer s.nextSendSeqNo = .live d)
      (hsend : afterSend cfg s now = some s') : SenderStep cfg s (.send now) s'

/-- The states of the sender of a transfer, at the head of the main loop and inside it. -/
def Transfer.SenderReaches (tr : Transfer) (s : Sender) : Prop :=
  ∃ actions, Run (SenderStep tr.cfg) (initialSender tr.dataBuffer tr.veryLastSeqNo) actions s

/-- What holds in every state of the sender. -/
structure SenderInv (cfg : SenderConfig) (packets : List GoBackNMessageStruct) (s : Sender) : Prop where
  holds : SenderHolds packets s
  lastAck : s.lastAckSeqNo = max 0 (s.dataBuffer.minSeqNo - 1)
  next : 0 ≤ s.nextSendSeqNo ∧ s.nextSendSeqNo ≤ s.lastAckSeqNo + cfg.window

section Steps

variable {cfg : SenderConfig} {packets : List GoBackNMessageStruct} {s s' : Sender}
  {ack : GoBackNMessageStruct}

/-- An acknowledgement is ignored, or it is for packets in the buffer and frees them, or it repeats the
last one and fails an assertion. -/
theorem SenderInv.handleAck_cases (h : SenderInv cfg packets s)
    (hbound : ack.hasErrors = false → ack.seqNoExpected ≤ s.veryLastSeqNo + 1) :
    (ack.hasErrors = true ∨ ack.seqNoExpected ≤ s.lastAckSeqNo) ∧ handleAck s ack = some s ∨
      (ack.hasErrors = false ∧ s.lastAckSeqNo < ack.seqNoExpected ∧
        s.dataBuffer.minSeqNo < ack.seqNoExpected ∧ ack.seqNoExpected ≤ packets.length ∧
        ∃ s', handleAck s ack = some s' ∧ SenderHolds packets s' ∧
          s'.dataBuffer.minSeqNo = ack.seqNoExpected ∧ s'.lastAckSeqNo = ack.seqNoExpected - 1 ∧
          s'.nextSendSeqNo = s.nextSendSeqNo) ∨
      (ack.hasErrors = false ∧ 0 < s.dataBuffer.minSeqNo ∧
        ack.seqNoExpected = s.dataBuffer.minSeqNo ∧ handleAck s ack = none) := by
  have hlast := h.lastAck
  have hveryLast := h.holds.veryLast
  by_cases hold : ack.hasErrors = true ∨ ack.seqNoExpected ≤ s.lastAckSeqNo
  · exact .inl ⟨hold, SenderHolds.handleAck_ignore hold⟩
  · simp only [not_or, Bool.not_eq_true, Int.not_le] at hold
    obtain ⟨herr, hnew⟩ := hold
    have hle := hbound herr
    by_cases hmin : ack.seqNoExpected ≤ s.dataBuffer.minSeqNo
    · refine .inr (.inr ⟨herr, by omega, by omega, ?_⟩)
      exact SenderHolds.handleAck_abort herr hnew hmin
    · refine .inr (.inl ⟨herr, hnew, by omega, by omega, ?_⟩)
      exact h.holds.handleAck_free herr hnew (by omega) (by omega)

theorem SenderInv.step (hwindow : 1 ≤ cfg.window) (h : SenderInv cfg packets s) {a : SenderAction}
    (hstep : SenderStep cfg s a s') : SenderInv cfg packets s' := by
  have hlast := h.lastAck
  have hnext := h.next
  have hnonneg := h.holds.minNonneg
  cases hstep with
  | read _ hbound hack =>
      rcases h.handleAck_cases hbound with ⟨-, heq⟩ | ⟨-, -, hmin, -, t, heq, hholds, hmin', hlast', hnext'⟩ |
        ⟨-, -, -, heq⟩
      · rw [hack] at heq
        cases heq
        exact h
      · rw [hack] at heq
        cases heq
        exact ⟨hholds, by omega, by omega⟩
      · rw [hack] at heq
        cases heq
  | expire _ htimeout =>
      obtain ⟨t, heq, hholds, hmin', hlast', hnext'⟩ := h.holds.handleTimeout_eq
      rw [htimeout] at heq
      cases heq
      exact ⟨hholds, by omega, by omega⟩
  | send hguard hget hsend =>
      rw [h.holds.sendGuard_iff] at hguard
      have hmin : s.dataBuffer.minSeqNo ≤ s.nextSendSeqNo := by
        by_contra hlt
        rw [h.holds.get_null (.inl (by omega))] at hget
        cases hget
      obtain ⟨hholds, hmin', hlast', hnext'⟩ := h.holds.afterSend_spec hmin hguard.2 hsend
      exact ⟨hholds, by omega, by omega⟩

theorem Transfer.senderInv (tr : Transfer) (h : tr.SenderReaches s) :
    SenderInv tr.cfg tr.packets s := by
  obtain ⟨actions, hrun⟩ := h
  refine hrun.invariant (fun _ _ _ hinv hstep => hinv.step tr.window_pos hstep) ?_
  have hstart := systemInv_start tr
  have hnext := hstart.next _ rfl
  exact ⟨hstart.holds _ rfl, hstart.lastAck _ rfl, hnext.1, hnext.2.2⟩

end Steps

/-! ### The rounds of the main loop are runs of steps -/

section Rounds

variable {cfg : SenderConfig} {packets sent : List GoBackNMessageStruct} {s s' : Sender}

theorem sendLoop_run (h : SenderHolds packets s) (clock : List Timeval)
    (hloop : sendLoop cfg clock s = some (s', sent)) :
    ∃ actions, Run (SenderStep cfg) s actions s' := by
  induction clock generalizing s sent with
  | nil =>
      obtain ⟨rfl, -⟩ := sendLoop_nil hloop
      exact ⟨[], .nil s'⟩
  | cons now clock ih =>
      rcases sendLoop_cons h hloop with ⟨-, rfl, -⟩ | ⟨d, t, rest, hguard, hmin, -, hsend, hrest, -⟩
      · exact ⟨[], .nil s'⟩
      · have hlt := ((h.sendGuard_iff cfg).mp hguard).2
        obtain ⟨d', hget, -⟩ := h.get_live hmin hlt
        obtain ⟨actions, hrun⟩ := ih (h.afterSend_spec hmin hlt hsend).1 hrest
        exact ⟨_, .cons (.send hguard hget hsend) hrun⟩

/-- A round of the main loop, with the timer of the code. -/
theorem senderIteration_run (h : SenderInv cfg packets s) (hloop : 0 < getBufferSize s.dataBuffer)
    {input : IterationInput} {expired : Bool}
    (hbound : ∀ ack, input.readable = some ack → ack.hasErrors = false →
      ack.seqNoExpected ≤ s.veryLastSeqNo + 1)
    (htimer : ∀ t, handleReadable s input = some t → expired = timerLt t.timerExpiration input.now)
    (hround : senderIteration cfg expired input s = some (s', sent)) :
    ∃ actions, Run (SenderStep cfg) s actions s' := by
  have hveryLast := h.holds.veryLast
  have hpackets : AckBounded packets input := fun ack hread herr => by
    have := hbound ack hread herr
    omega
  rw [senderIteration, Option.bind_eq_some_iff] at hround
  obtain ⟨u, hbefore, hsend⟩ := hround
  obtain ⟨t, hread, hack, htime⟩ := beforeSend_spec h.holds hpackets hbefore
  have hfirst : ∃ actions, Run (SenderStep cfg) s actions t := by
    unfold handleReadable at hread
    split at hread
    · rename_i ack hreadable
      exact ⟨_, .single (.read hloop (hbound ack hreadable) hread)⟩
    · cases hread
      exact ⟨[], .nil s⟩
  have hsecond : ∃ actions, Run (SenderStep cfg) t actions u := by
    rw [beforeSend, hread, Option.bind_some] at hbefore
    split at hbefore
    · rename_i hexpired
      exact ⟨_, .single (.expire ((htimer t hread).symm.trans hexpired) hbefore)⟩
    · cases hbefore
      exact ⟨[], .nil u⟩
  have hthird : ∃ actions, Run (SenderStep cfg) u actions s' := by
    split at hsend
    · exact sendLoop_run (htime.holds (hack.holds h.holds)) input.clock hsend
    · cases hsend
      exact ⟨[], .nil s'⟩
  obtain ⟨first, hrun⟩ := hfirst
  obtain ⟨second, hrun'⟩ := hsecond
  obtain ⟨third, hrun''⟩ := hthird
  exact ⟨_, (hrun.append hrun').append hrun''⟩

end Rounds

/-- The sender of every state of a transfer is one that the steps lead to. -/
theorem Transfer.senderReaches (tr : Transfer) {sys : System} (h : tr.Reachable codeTimer sys)
    {s : Sender} (hs : sys.sender = some s) : tr.SenderReaches s := by
  have hstep (sys : System) (a : Action) (sys' : System)
      (hinv : SystemInv tr.cfg tr.packets sys ∧ ∀ s, sys.sender = some s → tr.SenderReaches s)
      (hstep : Step tr.cfg codeTimer sys a sys') :
      SystemInv tr.cfg tr.packets sys' ∧ ∀ s, sys'.sender = some s → tr.SenderReaches s := by
    refine ⟨inv_step tr.packetList tr.window_pos hinv.1 hstep, ?_⟩
    cases hstep with
    | @senderRound s expired input hs hloop hread htimer =>
        intro s' hs'
        obtain ⟨actions, hrun⟩ := hinv.2 s hs
        have hsender := tr.senderInv (hinv.2 s hs)
        have hveryLast := hsender.holds.veryLast
        cases hround : senderIteration tr.cfg expired input s with
        | none =>
            rw [hround] at hs'
            cases hs'
        | some result =>
            rw [hround] at hs'
            cases hs'
            obtain ⟨rest, hrun'⟩ := senderIteration_run hsender hloop (fun ack hack herr => by
              have := ackBounded_of_inv hinv.1 hread ack hack herr
              omega) htimer hround
            exact ⟨_, hrun.append hrun'⟩
    | receiverRound => exact hinv.2
    | _ => exact hinv.2
  obtain ⟨actions, hrun⟩ := h
  refine (hrun.invariant hstep ⟨systemInv_start tr, ?_⟩).2 s hs
  rintro s ⟨⟩
  exact ⟨[], .nil _⟩

/-! ### Acknowledgements -/

/-- What is expected of the handling of an undamaged acknowledgement: no assertion fails; if it is not for
packets in the buffer, nothing changes; and otherwise exactly the packets below its number leave. -/
structure AckExact (s : Sender) (ack : GoBackNMessageStruct) : Prop where
  total : ∃ s', handleAck s ack = some s'
  old : ∀ s', handleAck s ack = some s' →
    ack.seqNoExpected ≤ getFirstSeqNoOfBuffer s.dataBuffer →
    s'.dataBuffer = s.dataBuffer ∧ s'.lastAckSeqNo = s.lastAckSeqNo ∧
      s'.timerExpiration = s.timerExpiration
  new : ∀ s', handleAck s ack = some s' →
    getFirstSeqNoOfBuffer s.dataBuffer < ack.seqNoExpected →
    ∀ n, (n < ack.seqNoExpected → getDataPacketFromBuffer s'.dataBuffer n = .null ∧
        bufferContainsPacket s'.dataBuffer n = false) ∧
      (ack.seqNoExpected ≤ n →
        getDataPacketFromBuffer s'.dataBuffer n = getDataPacketFromBuffer s.dataBuffer n ∧
        bufferContainsPacket s'.dataBuffer n = bufferContainsPacket s.dataBuffer n)

section Exact

variable {cfg : SenderConfig} {packets : List GoBackNMessageStruct} {s s' : Sender}
  {ack : GoBackNMessageStruct}

theorem SenderHolds.contains_eq (h : SenderHolds packets s) (h' : SenderHolds packets s') {n : Int}
    (hmin : s.dataBuffer.minSeqNo ≤ n) (hmin' : s'.dataBuffer.minSeqNo ≤ n) :
    bufferContainsPacket s'.dataBuffer n = bufferContainsPacket s.dataBuffer n := by
  rw [Bool.eq_iff_iff, h.bufferContains, h'.bufferContains, and_iff_right hmin, and_iff_right hmin']

theorem SenderInv.ackExact_iff (h : SenderInv cfg packets s) (herr : ack.hasErrors = false)
    (hle : ack.seqNoExpected ≤ s.veryLastSeqNo + 1) :
    AckExact s ack ↔ ¬(ack.seqNoExpected = s.dataBuffer.minSeqNo ∧ 0 < s.dataBuffer.minSeqNo) := by
  have hlast := h.lastAck
  have hnonneg := h.holds.minNonneg
  rcases h.handleAck_cases fun _ => hle with ⟨hold, heq⟩ |
    ⟨-, hnew, hmin, hlength, s', heq, hholds, hmin', -⟩ | ⟨-, hpos, hrepeat, heq⟩
  · have hold := hold.resolve_left (by rw [herr]; exact Bool.false_ne_true)
    refine iff_of_true ⟨⟨s, heq⟩, fun s' hs' _ => ?_, fun s' hs' hlt => ?_⟩ (by omega)
    · rw [heq] at hs'
      cases hs'
      exact ⟨rfl, rfl, rfl⟩
    · unfold getFirstSeqNoOfBuffer at hlt
      omega
  · obtain ⟨hget, -⟩ := h.holds.handleAck_get herr hnew hmin hlength heq
    refine iff_of_true ⟨⟨s', heq⟩, fun t ht hle' => ?_, fun t ht _ n => ?_⟩ (by omega)
    · unfold getFirstSeqNoOfBuffer at hle'
      omega
    · rw [heq] at ht
      cases ht
      refine ⟨fun hn => ⟨hholds.get_null (.inl (by omega)), ?_⟩, fun hn => ⟨hget n hn, ?_⟩⟩
      · rw [Bool.eq_false_iff, ne_eq, hholds.bufferContains]
        omega
      · exact h.holds.contains_eq hholds (by omega) (by omega)
  · refine iff_of_false (fun hexact => ?_) (not_not_intro ⟨hrepeat, hpos⟩)
    obtain ⟨s', hs'⟩ := hexact.total
    rw [heq] at hs'
    cases hs'

end Exact

/-- **Acknowledgements.** In every state of the sender an undamaged acknowledgement for packets of the file
is handled as expected exactly if it does not repeat the last one that was accepted. The test for new
acknowledgements compares with the last packet acknowledged, not with the number after it, so that a
repeated one passes it and fails the first assertion of `freeBuffer`. -/
theorem ack_exact_iff (tr : Transfer) (s : Sender) (h : tr.SenderReaches s) (ack : GoBackNMessageStruct)
    (herr : ack.hasErrors = false) (hle : ack.seqNoExpected ≤ s.veryLastSeqNo + 1) :
    AckExact s ack ↔ ¬(ack.seqNoExpected = getFirstSeqNoOfBuffer s.dataBuffer ∧
      0 < getFirstSeqNoOfBuffer s.dataBuffer) :=
  (tr.senderInv h).ackExact_iff herr hle

/-- The acknowledgement of the first packet of `oneByteTransfer`. -/
def firstAck : GoBackNMessageStruct := sendAck (oneBytePacket 0 [7]) 1

/-- The sender of `oneByteTransfer` at its start, and after the first acknowledgement. -/
def oneByteStart : Sender := initialSender oneByteTransfer.dataBuffer oneByteTransfer.veryLastSeqNo

def oneByteSentOne : Sender := (afterSend oneByteTransfer.cfg oneByteStart ⟨1, 0⟩).getD oneByteStart

def oneByteAckedOne : Sender := (handleAck oneByteSentOne firstAck).getD oneByteSentOne

theorem oneByteSentOne_run :
    Run (SenderStep oneByteTransfer.cfg) oneByteStart [.send ⟨1, 0⟩] oneByteSentOne :=
  .single (.send (d := dataPacket oneByteCfg zeroedHeap 0 [7]) (by decide +kernel) (by decide +kernel)
    (by decide +kernel))

theorem ack_exact_iff_oneByte : AckExact oneByteSentOne firstAck :=
  (ack_exact_iff oneByteTransfer oneByteSentOne ⟨_, oneByteSentOne_run⟩ firstAck rfl
    (by decide +kernel)).mpr (by decide +kernel)

theorem oneByteAckedOne_step (cfg : SenderConfig) :
    SenderStep cfg oneByteSentOne (.read firstAck) oneByteAckedOne :=
  .read (by decide +kernel) (by decide +kernel) (by decide +kernel)

/-- The sender has accepted the acknowledgement of the first packet; when a copy of it arrives, the
program ends. -/
theorem repeated_ack_aborts :
    oneByteTransfer.SenderReaches oneByteAckedOne ∧ firstAck.hasErrors = false ∧
      firstAck.seqNoExpected ≤ oneByteAckedOne.veryLastSeqNo + 1 ∧
      handleAck oneByteAckedOne firstAck = none ∧ ¬AckExact oneByteAckedOne firstAck := by
  have habort : handleAck oneByteAckedOne firstAck = none := by decide +kernel
  refine ⟨⟨_, oneByteSentOne_run.append (.single (oneByteAckedOne_step _))⟩, rfl, by decide +kernel,
    habort, fun hexact => ?_⟩
  obtain ⟨s', hs'⟩ := hexact.total
  rw [habort] at hs'
  cases hs'

/-! ### The window -/

/-- The packets that are sent and not acknowledged. -/
def outstanding (s : Sender) : Int := s.nextSendSeqNo - getFirstSeqNoOfBuffer s.dataBuffer

/-- What is expected of the window: at most `window` packets are outstanding, the guard of the send loop
allows exactly the packets that keep it so, and with nothing outstanding an unsent packet can be
sent. -/
structure WindowExact (cfg : SenderConfig) (s : Sender) : Prop where
  bounded : outstanding s ≤ cfg.window
  guard : sendGuard cfg s = true ↔ s.nextSendSeqNo ≤ s.veryLastSeqNo ∧ outstanding s < cfg.window
  idle : s.nextSendSeqNo ≤ s.veryLastSeqNo → outstanding s = 0 → sendGuard cfg s = true

/-- **The send window.** In every state of the sender at most `window` packets are outstanding. The guard of
the send loop is the one of a window of this size exactly if nothing has been acknowledged yet,
everything has been sent, or the number of outstanding packets is not `window - 1`; after the first
acknowledgement the window is one packet smaller. -/
theorem window_exact_iff (tr : Transfer) (s : Sender) (h : tr.SenderReaches s) :
    outstanding s ≤ tr.cfg.window ∧
      (WindowExact tr.cfg s ↔ getFirstSeqNoOfBuffer s.dataBuffer = 0 ∨
        s.veryLastSeqNo < s.nextSendSeqNo ∨ outstanding s ≠ tr.cfg.window - 1) := by
  have hinv := tr.senderInv h
  have hlast := hinv.lastAck
  have hnext := hinv.next
  have hnonneg := hinv.holds.minNonneg
  have hveryLast := hinv.holds.veryLast
  have hwindow := tr.window_pos
  have hguard := hinv.holds.sendGuard_iff tr.cfg
  have hbounded : outstanding s ≤ tr.cfg.window := by
    unfold outstanding getFirstSeqNoOfBuffer
    omega
  refine ⟨hbounded, fun hexact => ?_, fun hcond => ⟨hbounded, ?_, ?_⟩⟩
  · by_contra hcond
    simp only [not_or, Int.not_lt, not_not] at hcond
    obtain ⟨hfirst, hunsent, hedge⟩ := hcond
    have hallowed := hguard.mp (hexact.guard.mpr ⟨hunsent, by omega⟩)
    unfold outstanding getFirstSeqNoOfBuffer at hedge
    unfold getFirstSeqNoOfBuffer at hfirst
    omega
  · rw [hguard]
    unfold outstanding getFirstSeqNoOfBuffer at hcond ⊢
    omega
  · intro hunsent hidle
    rw [hguard]
    unfold outstanding getFirstSeqNoOfBuffer at hcond hidle
    omega

theorem window_exact_iff_oneByte : WindowExact oneByteTransfer.cfg oneByteSentOne :=
  ((window_exact_iff oneByteTransfer oneByteSentOne ⟨_, oneByteSentOne_run⟩).2).mpr
    (.inl (by decide +kernel))

/-- The file of one byte with a window of one packet. -/
def narrowCfg : SenderConfig := { oneByteCfg with window := 1 }

theorem narrow_accepted : readFileIntoBuffer narrowCfg zeroedHeap [7] = some (oneByteBuffer, 1) := by
  rw [readFileIntoBuffer, readFileLoop_of_true rfl, readFileLoop_of_false rfl]
  decide +kernel

def narrowTransfer : Transfer where
  cfg := narrowCfg
  heap := zeroedHeap
  file := [7]
  dataBuffer := oneByteBuffer
  veryLastSeqNo := 1
  accepted := narrow_accepted
  window_pos := le_rfl

/-- With a window of one packet the sender stops after the first acknowledgement: nothing is outstanding,
the last packet is not sent, and the guard does not hold. -/
theorem narrow_window_stalls :
    narrowTransfer.SenderReaches oneByteAckedOne ∧ outstanding oneByteAckedOne = 0 ∧
      oneByteAckedOne.nextSendSeqNo ≤ oneByteAckedOne.veryLastSeqNo ∧
      sendGuard narrowTransfer.cfg oneByteAckedOne = false ∧
      ¬WindowExact narrowTransfer.cfg oneByteAckedOne := by
  have hidle : outstanding oneByteAckedOne = 0 := by decide +kernel
  have hunsent : oneByteAckedOne.nextSendSeqNo ≤ oneByteAckedOne.veryLastSeqNo := by decide +kernel
  have hguard : sendGuard narrowTransfer.cfg oneByteAckedOne = false := by decide +kernel
  have hsend : SenderStep narrowCfg oneByteStart (.send ⟨1, 0⟩) oneByteSentOne :=
    .send (d := dataPacket oneByteCfg zeroedHeap 0 [7]) (by decide +kernel) (by decide +kernel)
      (by decide +kernel)
  refine ⟨⟨_, .cons hsend (.single (oneByteAckedOne_step _))⟩, hidle, hunsent, hguard, fun hexact => ?_⟩
  rw [hexact.idle hunsent hidle] at hguard
  cases hguard

end ComputerNetworking.GoBackN
