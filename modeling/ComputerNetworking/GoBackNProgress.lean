import ComputerNetworking.GoBackNSafety

/-! Which states of a transfer can still be completed without further losses.

The sender's timeout branch may be taken whenever a sent packet is not acknowledged. The receiver
acknowledges a packet once, when it accepts it, and the timeout never moves `nextSendSeqNo` back to
packet 0; so the transfer is stranded by some losses. `CanComplete` says which states are left, and
no step without a loss leads into it. -/

namespace ComputerNetworking.GoBackN

open Transition

/-- The steps of the two programs; the channel delivers what they read. -/
def LossFree (_ : System) : Action → Prop
  | .senderRound _ _ => True
  | .receiverRound _ => True
  | _ => False

/-- The steps of a continuation without losses. -/
abbrev LossFreeStep (cfg : SenderConfig) : System → Action → System → Prop :=
  Guarded LossFree (Step cfg generousTimer)

/-- The sender runs and its buffer is empty: it leaves its main loop. -/
def Completed (sys : System) : Prop :=
  ∃ s, sys.sender = some s ∧ getBufferSize s.dataBuffer = 0

/-- The channel holds an undamaged packet with the number. -/
def PacketInFlight (sys : System) (seqNo : Int) : Prop :=
  ∃ p ∈ sys.dataChannel, p.hasErrors = false ∧ p.seqNo = seqNo

/-- The channel holds an undamaged acknowledgement that expects the number. -/
def AckInFlight (sys : System) (seqNo : Int) : Prop :=
  ∃ ack ∈ sys.ackChannel, ack.hasErrors = false ∧ ack.seqNoExpected = seqNo

/-- What the sender needs to send the packet that the receiver expects: the packet is inside the
window, or an acknowledgement in flight will bring it there, and if it is packet 0 it has not been
sent before. -/
def CanSend (cfg : SenderConfig) (sys : System) (s : Sender) : Prop :=
  (sys.receiver.expected = 0 → s.nextSendSeqNo = 0) ∧
    (sys.receiver.expected < s.lastAckSeqNo + cfg.window ∨
      ∃ seqNo, AckInFlight sys seqNo ∧ sys.receiver.expected < seqNo - 1 + cfg.window)

/-- The sender runs, and either the last acknowledgement is in flight, or packets are missing, the
sender can get `nextSendSeqNo` back into its buffer, and the packet that the receiver expects is in
flight or can be sent. -/
def CanComplete (cfg : SenderConfig) (sys : System) : Prop :=
  ∃ s, sys.sender = some s ∧
    (AckInFlight sys (s.veryLastSeqNo + 1) ∨
      sys.receiver.expected ≤ s.veryLastSeqNo ∧
        (getFirstSeqNoOfBuffer s.dataBuffer ≤ s.nextSendSeqNo ∨ UnacknowledgedSent sys s) ∧
        (PacketInFlight sys sys.receiver.expected ∨ CanSend cfg sys s))

/-- The invariant of transfers under the generous timer. -/
structure ProgressInv (cfg : SenderConfig) (packets : List GoBackNMessageStruct) (sys : System) :
    Prop where
  inv : SystemInv cfg packets sys
  sentBelow : ∀ s, sys.sender = some s → ∀ i, 0 ≤ i → i < s.nextSendSeqNo → ∃ m ∈ sys.sent, m.seqNo = i
  sentZero : sys.sent ≠ [] → ∃ m ∈ sys.sent, m.seqNo = 0

section Invariant

variable {cfg : SenderConfig} {packets sent : List GoBackNMessageStruct} {sys sys' : System}
  {s s' : Sender} {count : Nat}

/-- The send loop has sent every number it has passed. -/
theorem SentOn.exists_sent (hp : PacketList packets) (h : SentOn cfg packets s s' sent count)
    (hnext : 0 ≤ s.nextSendSeqNo) {i : Int} (hle : s.nextSendSeqNo ≤ i) (hlt : i < s'.nextSendSeqNo) :
    ∃ m ∈ sent, m ∈ packets ∧ m.seqNo = i := by
  have hcount := h.nextSendSeqNo
  have hbounded := h.bounded (by omega)
  have hm : packets[i.toNat]? = some packets[i.toNat] := List.getElem?_eq_getElem (by omega)
  refine ⟨packets[i.toNat], ?_, List.getElem_mem _, ?_⟩
  · rw [h.sent]
    refine List.mem_of_getElem? (i := i.toNat - s.nextSendSeqNo.toNat) ?_
    rw [List.getElem?_take, if_pos (by omega), List.getElem?_drop, ← hm]
    congr 1
    omega
  · rw [hp.numbered _ _ hm]
    omega

/-- The number at which the send loop starts has only sent packets below it. -/
theorem ProgressInv.sent_before {input : IterationInput} {expired : Bool} {t u : Sender}
    (h : ProgressInv cfg packets sys) (hs : sys.sender = some s) (hack : AckHandled packets s input t)
    (htime : TimeoutHandled packets expired t u) (hlast : t.lastAckSeqNo = max 0 (t.dataBuffer.minSeqNo - 1))
    (hacked : t.dataBuffer.minSeqNo ≤ sys.receiver.expected) (htimer : expired = true → sys.sent ≠ []) :
    0 ≤ u.nextSendSeqNo ∧ ∀ i, 0 ≤ i → i < u.nextSendSeqNo → ∃ m ∈ sys.sent, m.seqNo = i := by
  have hnonneg := (h.inv.next s hs).1
  have hsame : t.nextSendSeqNo = s.nextSendSeqNo := by cases hack <;> first | rfl | assumption
  cases htime with
  | running => exact ⟨by omega, fun i h0 hi => h.sentBelow s hs i h0 (by omega)⟩
  | expired hexpired _ _ _ hnextSendSeqNo =>
      refine ⟨by omega, fun i h0 hi => ?_⟩
      rcases Int.lt_or_eq_of_le h0 with hpos | rfl
      · exact h.inv.expectedSent i h0 (by omega)
      · exact h.sentZero (htimer hexpired)

theorem progressInv_step (hp : PacketList packets) (hwindow : 1 ≤ cfg.window) {a : Action}
    (h : ProgressInv cfg packets sys) (hstep : Step cfg generousTimer sys a sys') :
    ProgressInv cfg packets sys' := by
  have hinv := inv_step hp hwindow h.inv hstep
  cases hstep with
  | @senderRound s expired input hs _ hread htimer =>
      cases hround : senderIteration cfg expired input s with
      | none =>
          rw [hround] at hinv
          exact ⟨hinv, by rintro _ ⟨⟩, h.sentZero⟩
      | some result =>
          obtain ⟨s', sent⟩ := result
          rw [hround] at hinv
          obtain ⟨t, u, count, ht, hack, htime, hsent⟩ := senderIteration_spec (h.inv.holds s hs)
            (ackBounded_of_inv h.inv hread) (h.inv.next s hs).1
            (by have := h.inv.lastAck s hs; omega) hround
          have hlast := ackHandled_lastAck (h.inv.lastAck s hs) (h.inv.holds s hs).minNonneg hack
          have hacked : t.dataBuffer.minSeqNo ≤ sys.receiver.expected := by
            have hacked' : s'.dataBuffer.minSeqNo ≤ sys.receiver.expected := hinv.acknowledged s' rfl
            have := hsent.minSeqNo
            cases htime <;> omega
          obtain ⟨hunext, hbelow⟩ := h.sent_before hs hack htime hlast hacked fun hexpired => by
            obtain ⟨p, hpsent, -⟩ := htimer t ht hexpired
            exact List.ne_nil_of_mem hpsent
          refine ⟨hinv, ?_, fun hne => ?_⟩
          · rintro _ ⟨⟩ i h0 hi
            by_cases hold : i < u.nextSendSeqNo
            · obtain ⟨m, hm, hseq⟩ := hbelow i h0 hold
              exact ⟨m, List.mem_append_left _ hm, hseq⟩
            · obtain ⟨m, hm, -, hseq⟩ := hsent.exists_sent hp hunext (by omega) hi
              exact ⟨m, List.mem_append_right _ hm, hseq⟩
          · rcases Int.lt_or_eq_of_le hunext with hpos | hzero
            · obtain ⟨m, hm, hseq⟩ := hbelow 0 le_rfl hpos
              exact ⟨m, List.mem_append_left _ hm, hseq⟩
            · by_cases hnil : sys.sent = []
              · have hnew : sent ≠ [] := by
                  rintro rfl
                  exact hne (List.append_eq_nil_iff.mpr ⟨hnil, rfl⟩)
                have hcount : 0 < count := by
                  refine Nat.pos_of_ne_zero fun h0 => hnew ?_
                  rw [hsent.sent, h0, List.take_zero]
                have hnext := hsent.nextSendSeqNo
                obtain ⟨m, hm, -, hseq⟩ := hsent.exists_sent hp hunext hzero.ge (by omega)
                exact ⟨m, List.mem_append_right _ hm, hseq⟩
              · obtain ⟨m, hm, hseq⟩ := h.sentZero hnil
                exact ⟨m, List.mem_append_left _ hm, hseq⟩
  | receiverRound => exact ⟨hinv, h.sentBelow, h.sentZero⟩
  | _ => exact ⟨hinv, h.sentBelow, h.sentZero⟩

theorem Transfer.progressInv {tr : Transfer} (h : tr.Reachable generousTimer sys) :
    ProgressInv tr.cfg tr.packets sys := by
  obtain ⟨actions, hrun⟩ := h
  refine hrun.invariant
    (fun _ _ _ hinv hstep => progressInv_step tr.packetList tr.window_pos hinv hstep) ?_
  refine ⟨systemInv_start tr, ?_, fun hne => absurd rfl hne⟩
  rintro s ⟨⟩ i h0 hi
  change i < 0 at hi
  omega

end Invariant

/-! ### What a state without the condition cannot reach -/

section Stranded

variable {cfg : SenderConfig} {packets : List GoBackNMessageStruct} {sys sys' : System}
  {s : Sender}

theorem completed_iff (h : SystemInv cfg packets sys) (hs : sys.sender = some s) :
    Completed sys ↔ s.dataBuffer.minSeqNo = packets.length := by
  have hsize := (h.holds s hs).bufferSize
  constructor
  · rintro ⟨s', hs', hempty⟩
    rw [hs] at hs'
    cases hs'
    omega
  · intro hall
    exact ⟨s, hs, by omega⟩

theorem unacknowledgedSent_iff (h : SystemInv cfg packets sys) (hs : SenderHolds packets s)
    (hp : PacketList packets) :
    UnacknowledgedSent sys s ↔ ∃ p ∈ sys.sent, s.dataBuffer.minSeqNo ≤ p.seqNo := by
  constructor
  · rintro ⟨p, hsent, hcontains⟩
    exact ⟨p, hsent, ((hs.bufferContains p.seqNo).mp hcontains).1⟩
  · rintro ⟨p, hsent, hle⟩
    have := (hp.getElem?_seqNo (h.sentPackets p hsent)).2.1
    exact ⟨p, hsent, (hs.bufferContains p.seqNo).mpr ⟨hle, this⟩⟩

/-- The last acknowledgement that a round has read was in flight. -/
theorem ackInFlight_of_lastAck {input : IterationInput} {t : Sender}
    (hread : ∀ ack, input.readable = some ack → ack ∈ sys.ackChannel)
    (hack : AckHandled packets s input t) :
    t = s ∨ AckInFlight sys t.dataBuffer.minSeqNo ∧
      t.lastAckSeqNo = t.dataBuffer.minSeqNo - 1 ∧ t.nextSendSeqNo = s.nextSendSeqNo ∧
      s.dataBuffer.minSeqNo < t.dataBuffer.minSeqNo := by
  cases hack with
  | ignored => exact .inl rfl
  | freed ack hreadable herr _ hlt _ hmin hlast hnext =>
      exact .inr ⟨⟨ack, hread ack hreadable, herr, hmin.symm⟩, by omega, hnext, by omega⟩

theorem AckInFlight.of_acksAfter {input : IterationInput} {seqNo : Int}
    {sender : Option Sender} {data sent : List GoBackNMessageStruct} {receiver : Receiver}
    (h : AckInFlight ⟨sender, receiver, data, sys.acksAfter input, sent⟩ seqNo) :
    AckInFlight sys seqNo := by
  obtain ⟨ack, hmem, hack⟩ := h
  exact ⟨ack, mem_of_mem_acksAfter hmem, hack⟩

/-- A sender that can get `nextSendSeqNo` into its buffer after a round could do so before it: the
round of any other sender neither times out nor sends. -/
theorem canRecover_of_senderRound {input : IterationInput} {expired : Bool} {t u s' : Sender}
    {sent : List GoBackNMessageStruct} {count : Nat}
    (hread : ∀ ack, input.readable = some ack → ack ∈ sys.ackChannel)
    (hack : AckHandled packets s input t) (htime : TimeoutHandled packets expired t u)
    (hsent : SentOn cfg packets u s' sent count)
    (htimer : expired = true → ∃ p ∈ sys.sent, t.dataBuffer.minSeqNo ≤ p.seqNo)
    (hrecover : s'.dataBuffer.minSeqNo ≤ s'.nextSendSeqNo ∨
      ∃ p ∈ sys.sent ++ sent, s'.dataBuffer.minSeqNo ≤ p.seqNo) :
    s.dataBuffer.minSeqNo ≤ s.nextSendSeqNo ∨
      ∃ p ∈ sys.sent, s.dataBuffer.minSeqNo ≤ p.seqNo := by
  by_contra hstuck
  obtain ⟨hbelow, hnone⟩ := not_or.mp hstuck
  have hacked : s.dataBuffer.minSeqNo ≤ t.dataBuffer.minSeqNo ∧
      t.nextSendSeqNo = s.nextSendSeqNo := by
    rcases ackInFlight_of_lastAck hread hack with rfl | ⟨-, -, hsame, hlt⟩
    · exact ⟨le_rfl, rfl⟩
    · exact ⟨by omega, hsame⟩
  have hrunning : u = t := by
    cases htime with
    | running => rfl
    | expired hexpired =>
        obtain ⟨p, hpsent, hle⟩ := htimer hexpired
        exact absurd ⟨p, hpsent, by omega⟩ hnone
  subst hrunning
  have hcount : count = 0 := by
    refine Nat.eq_zero_of_not_pos fun hpos => ?_
    have := (hsent.bounded hpos).1
    omega
  subst hcount
  have hmin := hsent.minSeqNo
  have hnext := hsent.nextSendSeqNo
  rcases hrecover with hge | ⟨p, hpsent, hge⟩
  · omega
  · have hnil : sent = [] := by rw [hsent.sent, List.take_zero]
    rw [hnil, List.append_nil] at hpsent
    exact hnone ⟨p, hpsent, by omega⟩

/-- A sender whose round brings a packet into the window could send it before the round. -/
theorem canSend_of_senderRound {input : IterationInput} {expired : Bool} {t u s' : Sender}
    {sent : List GoBackNMessageStruct} {count : Nat}
    (hread : ∀ ack, input.readable = some ack → ack ∈ sys.ackChannel)
    (hack : AckHandled packets s input t) (htime : TimeoutHandled packets expired t u)
    (hsent : SentOn cfg packets u s' sent count)
    (hlt : sys.receiver.expected < s'.lastAckSeqNo + cfg.window)
    (hzero : sys.receiver.expected = 0 → s.nextSendSeqNo = 0) : CanSend cfg sys s := by
  refine ⟨hzero, ?_⟩
  have htlast : s'.lastAckSeqNo = t.lastAckSeqNo := by
    have := hsent.lastAckSeqNo
    cases htime <;> omega
  rcases ackInFlight_of_lastAck hread hack with rfl | ⟨hflight, hlastAck, -⟩
  · exact .inl (by omega)
  · exact .inr ⟨_, hflight, by omega⟩

/-- What a round of the sender makes possible was possible before. -/
theorem canComplete_of_senderRound (hp : PacketList packets) (hwindow : 1 ≤ cfg.window)
    (h : ProgressInv cfg packets sys) {expired : Bool} {input : IterationInput}
    (hs : sys.sender = some s) (hread : ∀ ack, input.readable = some ack → ack ∈ sys.ackChannel)
    (htimer : ∀ t, handleReadable s input = some t → generousTimer sys t input.now expired)
    (hready : Completed (sys.afterSender input (senderIteration cfg expired input s)) ∨
      CanComplete cfg (sys.afterSender input (senderIteration cfg expired input s))) :
    Completed sys ∨ CanComplete cfg sys := by
  have hinv : SystemInv cfg packets
      (sys.afterSender input (senderIteration cfg expired input s)) :=
    inv_senderRound hp hwindow h.inv hs hread
  have hholds := h.inv.holds s hs
  have hveryLast := hholds.veryLast
  cases hround : senderIteration cfg expired input s with
  | none =>
      rw [hround] at hready
      rcases hready with ⟨s', hnone, -⟩ | ⟨s', hnone, -⟩ <;> cases hnone
  | some result =>
      obtain ⟨s', sent⟩ := result
      rw [hround] at hready hinv
      obtain ⟨t, u, count, ht, hack, htime, hsent⟩ := senderIteration_spec hholds
        (ackBounded_of_inv h.inv hread) (h.inv.next s hs).1
        (by have := h.inv.lastAck s hs; omega) hround
      have hlast := ackHandled_lastAck (h.inv.lastAck s hs) hholds.minNonneg hack
      have hveryLast' := hsent.holds.veryLast
      have hmin := hsent.minSeqNo
      have hnext := hsent.nextSendSeqNo
      have htholds := hack.holds hholds
      have hunext : 0 ≤ u.nextSendSeqNo := by
        have := (h.inv.next s hs).1
        cases htime <;> cases hack <;> omega
      rcases hready with hdone | ⟨_, ⟨⟩, hfinal | ⟨hmissing, hrecover, hpacket⟩⟩
      · -- the buffer was emptied by an acknowledgement, if it was not empty before
        rw [completed_iff hinv rfl] at hdone
        have htmin : t.dataBuffer.minSeqNo = packets.length := by cases htime <;> omega
        rcases ackInFlight_of_lastAck hread hack with rfl | ⟨hflight, -⟩
        · exact .inl ((completed_iff h.inv hs).mpr htmin)
        · refine .inr ⟨s, hs, .inl ?_⟩
          rwa [hveryLast, Int.sub_add_cancel, ← htmin]
      · refine .inr ⟨s, hs, .inl ?_⟩
        rw [hveryLast, ← hveryLast']
        exact hfinal.of_acksAfter
      · change sys.receiver.expected ≤ _ at hmissing
        refine .inr ⟨s, hs, .inr ⟨by omega, ?_, ?_⟩⟩
        · rw [unacknowledgedSent_iff hinv hsent.holds hp] at hrecover
          rw [unacknowledgedSent_iff h.inv hholds hp]
          refine canRecover_of_senderRound hread hack htime hsent (fun hexpired => ?_) hrecover
          obtain ⟨p, hpsent, hcontains⟩ := htimer t ht hexpired
          exact ⟨p, hpsent, ((htholds.bufferContains _).mp hcontains).1⟩
        · -- a packet sent in this round could be sent before
          have hzero : u.nextSendSeqNo ≤ 0 → s.nextSendSeqNo = 0 := by
            intro hle
            have := (h.inv.next s hs).1
            cases htime <;> cases hack <;> omega
          rcases hpacket with ⟨p, hpdata, herr, hseq⟩ | ⟨hfresh, hin | ⟨seqNo, hflight, hlt⟩⟩
          · rcases List.mem_append.mp hpdata with hold | hnew
            · exact .inl ⟨p, hold, herr, hseq⟩
            · change p.seqNo = sys.receiver.expected at hseq
              refine .inr (canSend_of_senderRound hread hack htime hsent ?_ fun h0 => hzero ?_)
              · rw [← hseq]
                exact hinv.sentWindow s' rfl p (List.mem_append_right _ hnew)
              · have := hsent.mem hp hunext hnew
                omega
          · exact .inr (canSend_of_senderRound hread hack htime hsent hin
              fun h0 => hzero (by have := hfresh h0; omega))
          · refine .inr ⟨fun h0 => hzero (by have := hfresh h0; omega), .inr ⟨seqNo, ?_, hlt⟩⟩
            exact hflight.of_acksAfter

/-- What a round of the receiver makes possible was possible before. -/
theorem canComplete_of_receiverRound (hp : PacketList packets) (h : SystemInv cfg packets sys)
    {data : GoBackNMessageStruct} (hdata : data ∈ sys.dataChannel)
    (hready : Completed (sys.afterReceiver data) ∨ CanComplete cfg (sys.afterReceiver data)) :
    Completed sys ∨ CanComplete cfg sys := by
  rcases hready with hdone | ⟨s, hs, hrest⟩
  · exact .inl hdone
  have hwhole := h.dataWhole data hdata
  by_cases hbad : data.hasErrors = true ∨ data.seqNo ≠ sys.receiver.expected
  · rw [System.afterReceiver, receiverIteration_discard hwhole hbad] at hrest
    refine .inr ⟨s, hs, ?_⟩
    rcases hrest with ⟨ack, hack, hgood⟩ | ⟨hmissing, hrecover, hpacket⟩
    · exact .inl ⟨ack, by simpa using hack, hgood⟩
    · refine .inr ⟨hmissing, hrecover, ?_⟩
      rcases hpacket with ⟨p, hpdata, hgood⟩ | ⟨hfresh, hin | ⟨seqNo, ⟨ack, hack, hgood⟩, hlt⟩⟩
      · exact .inl ⟨p, List.mem_of_mem_erase hpdata, hgood⟩
      · exact .inr ⟨hfresh, .inl hin⟩
      · exact .inr ⟨hfresh, .inr ⟨seqNo, ⟨ack, by simpa using hack, hgood⟩, hlt⟩⟩
  · simp only [not_or, Bool.not_eq_true, not_not] at hbad
    have hs : sys.sender = some s := hs
    have hsent := h.dataSent data hdata hbad.1
    have hlt := (hp.getElem?_seqNo (h.sentPackets data hsent)).2.1
    have hveryLast := (h.holds s hs).veryLast
    have hacked := h.acknowledged s hs
    refine .inr ⟨s, hs, .inr ⟨by omega, .inr ?_, .inl ⟨data, hdata, hbad⟩⟩⟩
    exact (unacknowledgedSent_iff h (h.holds s hs) hp).mpr ⟨data, hsent, by omega⟩

/-- A state from which loss-free steps complete the transfer meets the condition. -/
theorem canComplete_of_reaches (hp : PacketList packets) (hwindow : 1 ≤ cfg.window)
    (h : ProgressInv cfg packets sys) (hreach : Reaches (LossFreeStep cfg) sys Completed) :
    Completed sys ∨ CanComplete cfg sys := by
  have hinv (sys : System) (a : Action) (sys' : System) (h : ProgressInv cfg packets sys)
      (hstep : LossFreeStep cfg sys a sys') : ProgressInv cfg packets sys' :=
    progressInv_step hp hwindow h hstep.2
  refine hreach.reflect (fun sys => Completed sys ∨ CanComplete cfg sys) hinv ?_ (fun _ => .inl) h
  rintro sys a sys' hinv ⟨hfree, hstep⟩ hready
  cases hstep with
  | senderRound hs _ hread htimer =>
      exact canComplete_of_senderRound hp hwindow hinv hs hread htimer hready
  | receiverRound _ hdata => exact canComplete_of_receiverRound hp hinv.inv hdata hready
  | _ => cases hfree

end Stranded

end ComputerNetworking.GoBackN
