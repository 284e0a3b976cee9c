import ComputerNetworking.GoBackNSystem

/-! Safety of a transfer: the receiver writes a prefix of the file.

The joint invariant `SystemInv` is preserved by every step of the two programs and of the channel,
whatever the timer does. -/

namespace ComputerNetworking.GoBackN

open Transition

section Packets

variable {packets : List GoBackNMessageStruct}

/-- A packet of the file is found at its number. -/
theorem PacketList.getElem?_seqNo (h : PacketList packets) {p : GoBackNMessageStruct}
    (hp : p ∈ packets) : 0 ≤ p.seqNo ∧ p.seqNo < packets.length ∧
      packets[p.seqNo.toNat]? = some p := by
  obtain ⟨j, hj⟩ := List.mem_iff_getElem?.mp hp
  have hlt := (List.getElem?_eq_some_iff.mp hj).1
  have hseq := h.numbered j p hj
  rw [hseq, Int.toNat_natCast]
  exact ⟨by omega, by omega, hj⟩

/-- The packets a send loop sends are packets of the file with consecutive numbers. -/
theorem mem_take_drop {start count : Nat} {p : GoBackNMessageStruct}
    (hp : p ∈ (packets.drop start).take count) :
    ∃ j, j < count ∧ packets[start + j]? = some p := by
  obtain ⟨j, hj⟩ := List.mem_iff_getElem?.mp hp
  rw [List.getElem?_take] at hj
  split at hj
  · exact ⟨j, ‹_›, by rwa [List.getElem?_drop] at hj⟩
  · cases hj

end Packets

section Receiver

variable {r : Receiver} {data : GoBackNMessageStruct}

/-- The receiver after a message it discards. -/
def Receiver.discard (r : Receiver) (data : GoBackNMessageStruct) : Receiver :=
  { r with totalBytes := r.totalBytes + (data.size - headerSize) }

theorem receiverIteration_discard (hwhole : data.size = data.data.length + headerSize)
    (hbad : data.hasErrors = true ∨ data.seqNo ≠ r.expected) :
    receiverIteration r data = (r.discard data, none) := by
  have hsize : data.size ≠ 0 := by rw [hwhole, headerSize]; omega
  unfold receiverIteration
  simp only [hsize, if_false]
  rcases hbad with herr | hseq
  · rw [if_pos herr]
    rfl
  · unfold Receiver.expected at hseq
    rw [if_pos hseq]
    split <;> rfl

theorem receiverIteration_accept (hwhole : data.size = data.data.length + headerSize)
    (herr : data.hasErrors = false) (hseq : data.seqNo = r.expected) :
    receiverIteration r data =
      (acceptPacket (r.discard data) data, some (sendAck data (data.seqNo + 1))) := by
  have hsize : data.size ≠ 0 := by rw [hwhole, headerSize]; omega
  have hexpected : data.seqNo = (r.discard data).lastReceivedSeqNo + 1 := hseq
  unfold receiverIteration
  simp only [hsize, if_false, herr, Bool.false_eq_true]
  rw [if_neg (by simpa [Receiver.discard] using hexpected)]
  rfl

theorem writeBuffer_eq (hwhole : data.size = data.data.length + headerSize) :
    writeBuffer data = data.data := by
  rw [writeBuffer, hwhole, Nat.add_sub_cancel, List.take_length]

end Receiver

section Steps

variable {cfg : SenderConfig} {packets : List GoBackNMessageStruct} {sys : System} {s t : Sender}
  {input : IterationInput}

theorem mem_of_mem_acksAfter {m : GoBackNMessageStruct} (hm : m ∈ sys.acksAfter input) :
    m ∈ sys.ackChannel := by
  unfold System.acksAfter at hm
  split at hm
  · exact List.mem_of_mem_erase hm
  · exact hm

theorem ackBounded_of_inv (h : SystemInv cfg packets sys)
    (hread : ∀ ack, input.readable = some ack → ack ∈ sys.ackChannel) : AckBounded packets input := by
  intro ack hack herr
  have := (h.ackExpected ack (hread ack hack) herr).2
  have := h.expectedRange
  omega

/-- The counters after the acknowledgement still agree with each other. -/
theorem ackHandled_lastAck (hlast : s.lastAckSeqNo = max 0 (s.dataBuffer.minSeqNo - 1))
    (hnonneg : 0 ≤ s.dataBuffer.minSeqNo) (hack : AckHandled packets s input t) :
    t.lastAckSeqNo = max 0 (t.dataBuffer.minSeqNo - 1) := by
  cases hack <;> omega

/-- The packets that the send loop sends, and their numbers. -/
theorem SentOn.mem (hp : PacketList packets) {s' : Sender} {sent : List GoBackNMessageStruct} {count : Nat}
    (h : SentOn cfg packets s s' sent count) (hnext : 0 ≤ s.nextSendSeqNo) {m : GoBackNMessageStruct}
    (hm : m ∈ sent) :
    m ∈ packets ∧ s.nextSendSeqNo ≤ m.seqNo ∧ m.seqNo < s'.lastAckSeqNo + cfg.window := by
  rw [h.sent] at hm
  obtain ⟨j, hj, hget⟩ := mem_take_drop hm
  have hseq := hp.numbered _ m hget
  have hcount := h.nextSendSeqNo
  have hlast := h.lastAckSeqNo
  have hbounded := (h.bounded (by omega)).2.2
  exact ⟨List.mem_of_getElem? hget, by omega, by omega⟩

/-- What a round of the sender does to the invariant. -/
theorem inv_senderRound (hp : PacketList packets) (hwindow : 1 ≤ cfg.window)
    (h : SystemInv cfg packets sys) {expired : Bool} (hs : sys.sender = some s)
    (hread : ∀ ack, input.readable = some ack → ack ∈ sys.ackChannel) :
    SystemInv cfg packets (sys.afterSender input (senderIteration cfg expired input s)) := by
  have hacks : ∀ m ∈ sys.acksAfter input, m ∈ sys.ackChannel := fun _ => mem_of_mem_acksAfter
  have hholds := h.holds s hs
  have hlast := h.lastAck s hs
  have hnext := h.next s hs
  have hacked := h.acknowledged s hs
  have hrange := h.expectedRange
  have hbound := ackBounded_of_inv h hread
  cases hround : senderIteration cfg expired input s with
  | none =>
      exact { h with
        holds := fun _ hnone => by cases hnone
        lastAck := fun _ hnone => by cases hnone
        next := fun _ hnone => by cases hnone
        acknowledged := fun _ hnone => by cases hnone
        sentWindow := fun _ hnone => by cases hnone
        ackExpected := fun m hm => h.ackExpected m (hacks m hm) }
  | some result =>
      obtain ⟨s', sent⟩ := result
      obtain ⟨t, u, count, -, hack, htime, hsent⟩ :=
        senderIteration_spec hholds hbound hnext.1 (by omega) hround
      -- the counters before the send loop
      obtain ⟨hulast, hunext, hulength, huwindow, huacked, hle⟩ :
          u.lastAckSeqNo = max 0 (u.dataBuffer.minSeqNo - 1) ∧ 0 ≤ u.nextSendSeqNo ∧
          u.nextSendSeqNo ≤ packets.length ∧ u.nextSendSeqNo ≤ u.lastAckSeqNo + cfg.window ∧
          u.dataBuffer.minSeqNo ≤ sys.receiver.expected ∧ s.lastAckSeqNo ≤ u.lastAckSeqNo := by
        have hpos := hp.nonempty
        cases hack with
        | ignored => cases htime <;> omega
        | freed ack hreadable herr =>
            have := (h.ackExpected ack (hread ack hreadable) herr).2
            cases htime <;> omega
      have hcount := hsent.nextSendSeqNo
      have hmin := hsent.minSeqNo
      have hlast' := hsent.lastAckSeqNo
      have hbounded := hsent.bounded
      have hmem (m : GoBackNMessageStruct) (hm : m ∈ sent) := hsent.mem hp hunext hm
      exact { h with
        holds := by rintro _ ⟨⟩; exact hsent.holds
        lastAck := by rintro _ ⟨⟩; omega
        next := by
          rintro _ ⟨⟩
          rcases Nat.eq_zero_or_pos count with hzero | hpos
          · omega
          · have := hbounded hpos
            omega
        acknowledged := by rintro _ ⟨⟩; exact hmin ▸ huacked
        sentWindow := by
          rintro _ ⟨⟩ m hm
          rcases List.mem_append.mp hm with hold | hnew
          · have := h.sentWindow s hs m hold
            omega
          · exact (hmem m hnew).2.2
        sentPackets := fun m hm => by
          rcases List.mem_append.mp hm with hold | hnew
          · exact h.sentPackets m hold
          · exact (hmem m hnew).1
        dataWhole := fun m hm => by
          rcases List.mem_append.mp hm with hold | hnew
          · exact h.dataWhole m hold
          · exact hp.sized m (hmem m hnew).1
        dataSent := fun m hm herr => by
          rcases List.mem_append.mp hm with hold | hnew
          · exact List.mem_append_left _ (h.dataSent m hold herr)
          · exact List.mem_append_right _ hnew
        ackExpected := fun m hm => h.ackExpected m (hacks m hm)
        expectedSent := fun i h0 hlt => by
          obtain ⟨m, hm, hseq⟩ := h.expectedSent i h0 hlt
          exact ⟨m, List.mem_append_left _ hm, hseq⟩ }

/-- What a round of the receiver does to the invariant. -/
theorem inv_receiverRound (hp : PacketList packets) (h : SystemInv cfg packets sys)
    {data : GoBackNMessageStruct} (hdata : data ∈ sys.dataChannel) :
    SystemInv cfg packets (sys.afterReceiver data) := by
  have hwhole := h.dataWhole data hdata
  by_cases hbad : data.hasErrors = true ∨ data.seqNo ≠ sys.receiver.expected
  · rw [System.afterReceiver, receiverIteration_discard hwhole hbad]
    exact { h with
      dataWhole := fun m hm => h.dataWhole m (List.mem_of_mem_erase hm)
      dataSent := fun m hm => h.dataSent m (List.mem_of_mem_erase hm)
      ackExpected := fun m hm => h.ackExpected m (by simpa using hm) }
  · simp only [not_or, Bool.not_eq_true, not_not] at hbad
    obtain ⟨herr, hseq⟩ := hbad
    rw [System.afterReceiver, receiverIteration_accept hwhole herr hseq]
    have hsent := h.dataSent data hdata herr
    obtain ⟨hnonneg, hlt, hget⟩ := hp.getElem?_seqNo (h.sentPackets data hsent)
    have hempty := hp.lastEmpty _ data hget
    have htoNat : (data.seqNo + 1).toNat = data.seqNo.toNat + 1 := by omega
    constructor
    case acknowledged =>
      intro s hs
      have := h.acknowledged s hs
      change _ ≤ data.seqNo + 1
      omega
    case dataWhole => exact fun m hm => h.dataWhole m (List.mem_of_mem_erase hm)
    case dataSent => exact fun m hm => h.dataSent m (List.mem_of_mem_erase hm)
    case ackExpected =>
      intro m hm herr'
      change 1 ≤ _ ∧ _ ≤ data.seqNo + 1
      rcases List.mem_append.mp hm with hold | hnew
      · have := h.ackExpected m hold herr'
        omega
      · rw [Option.toList_some, List.mem_singleton] at hnew
        subst hnew
        change 1 ≤ data.seqNo + 1 ∧ data.seqNo + 1 ≤ data.seqNo + 1
        omega
    case expectedRange =>
      change 0 ≤ data.seqNo + 1 ∧ data.seqNo + 1 ≤ _
      omega
    case expectedSent =>
      intro i h0 hi
      change i < data.seqNo + 1 at hi
      rcases Int.lt_or_eq_of_le (Int.lt_add_one_iff.mp hi) with hlt' | heq
      · exact h.expectedSent i h0 (by omega)
      · exact ⟨data, hsent, heq.symm⟩
    case output =>
      change sys.receiver.output ++ writeBuffer data = (packets.take (data.seqNo + 1).toNat).flatMap _
      rw [writeBuffer_eq hwhole, htoNat, List.take_add_one, hget, h.output, ← hseq]
      simp
    case goodBytes =>
      change sys.receiver.goodBytes + (data.size - headerSize) =
        (sys.receiver.output ++ writeBuffer data).length
      rw [writeBuffer_eq hwhole, List.length_append, h.goodBytes, hwhole, Nat.add_sub_cancel]
    case closed =>
      change (sys.receiver.closed || decide (data.size = headerSize)) = true ↔
        data.seqNo + 1 = packets.length
      have hopen : sys.receiver.closed = false := by
        rw [Bool.eq_false_iff]
        intro hclosed
        have := h.closed.mp hclosed
        omega
      rw [hopen, Bool.false_or, decide_eq_true_iff]
      have hsize : data.size = headerSize ↔ data.data = [] := by
        rw [hwhole, ← List.length_eq_zero_iff]
        omega
      rw [hsize, hempty]
      omega
    case running => exact h.running
    case holds => exact h.holds
    case lastAck => exact h.lastAck
    case next => exact h.next
    case sentWindow => exact h.sentWindow
    case sentPackets => exact h.sentPackets

/-- Every step preserves the invariant. -/
theorem inv_step (hp : PacketList packets) (hwindow : 1 ≤ cfg.window) {rule : TimerRule}
    {a : Action} {sys' : System} (h : SystemInv cfg packets sys)
    (hstep : Step cfg rule sys a sys') : SystemInv cfg packets sys' := by
  cases hstep with
  | senderRound hs _ hread _ => exact inv_senderRound hp hwindow h hs hread
  | receiverRound _ hdata => exact inv_receiverRound hp h hdata
  | dropData _ =>
      exact { h with
        dataWhole := fun m hm => h.dataWhole m (List.mem_of_mem_erase hm)
        dataSent := fun m hm => h.dataSent m (List.mem_of_mem_erase hm) }
  | dropAck _ =>
      exact { h with ackExpected := fun m hm => h.ackExpected m (List.mem_of_mem_erase hm) }
  | duplicateData hdata =>
      exact { h with
        dataWhole := List.forall_mem_cons.mpr ⟨h.dataWhole _ hdata, h.dataWhole⟩
        dataSent := List.forall_mem_cons.mpr ⟨h.dataSent _ hdata, h.dataSent⟩ }
  | duplicateAck hack =>
      exact { h with
        ackExpected := List.forall_mem_cons.mpr ⟨h.ackExpected _ hack, h.ackExpected⟩ }
  | damageData _ hdamaged =>
      exact { h with
        dataWhole := List.forall_mem_cons.mpr
          ⟨hdamaged.2.1, fun m hm => h.dataWhole m (List.mem_of_mem_erase hm)⟩
        dataSent := List.forall_mem_cons.mpr
          ⟨fun herr => by simp [hdamaged.1] at herr,
            fun m hm => h.dataSent m (List.mem_of_mem_erase hm)⟩ }
  | damageAck _ hdamaged =>
      exact { h with
        ackExpected := List.forall_mem_cons.mpr
          ⟨fun herr => by simp [hdamaged.1] at herr,
            fun m hm => h.ackExpected m (List.mem_of_mem_erase hm)⟩ }

end Steps

namespace Transfer

variable (tr : Transfer)

theorem packetList : PacketList tr.packets := packetList_filePackets tr.cfg tr.heap tr.file

theorem inv_run {rule : TimerRule} {sys sys' : System} {actions : List Action}
    (h : SystemInv tr.cfg tr.packets sys) (hrun : Run (Step tr.cfg rule) sys actions sys') :
    SystemInv tr.cfg tr.packets sys' :=
  hrun.invariant (fun _ _ _ hinv hstep => inv_step tr.packetList tr.window_pos hinv hstep) h

/-- The invariant holds in every state of a transfer. -/
theorem Reachable.inv {tr : Transfer} {rule : TimerRule} {sys : System}
    (h : tr.Reachable rule sys) : SystemInv tr.cfg tr.packets sys := by
  obtain ⟨actions, hrun⟩ := h
  exact tr.inv_run (systemInv_start tr) hrun

/-- The payload of a packet in the buffer that `readFileIntoBuffer` has filled. -/
def payload (seqNo : Nat) : Bytes :=
  match getDataPacketFromBuffer tr.dataBuffer seqNo with
  | .live d => d.packet.data
  | _ => []

theorem payload_eq {i : Nat} {p : GoBackNMessageStruct} (hp : tr.packets[i]? = some p) :
    tr.payload i = p.data := by
  obtain ⟨hrep, hmin, -⟩ := readFileIntoBuffer_some tr.cfg tr.heap tr.accepted
  rw [packets, filePackets, List.getElem?_map, Option.map_eq_some_iff] at hp
  obtain ⟨d, hd, rfl⟩ := hp
  have hget := hrep.get_eq hd
  rw [hmin, Int.zero_add] at hget
  rw [payload, hget]

theorem take_payloads {n : Nat} (hle : n ≤ tr.packets.length) :
    (tr.packets.take n).flatMap (·.data) = (List.range n).flatMap tr.payload := by
  induction n with
  | zero => rfl
  | succ n ih =>
      have hp : tr.packets[n]? = some tr.packets[n] := List.getElem?_eq_getElem (by omega)
      rw [List.take_add_one, hp, Option.toList_some, List.flatMap_append, ih (by omega),
        List.range_succ, List.flatMap_append, List.flatMap_singleton, List.flatMap_singleton,
        tr.payload_eq hp]

theorem veryLastSeqNo_eq : tr.veryLastSeqNo = tr.packets.length - 1 :=
  (readFileIntoBuffer_some tr.cfg tr.heap tr.accepted).2.2

/-- A closed output file stays closed and is not written to. -/
theorem closed_step {rule : TimerRule} {sys sys' : System} {a : Action}
    (h : SystemInv tr.cfg tr.packets sys) (hclosed : sys.receiver.closed = true)
    (hstep : Step tr.cfg rule sys a sys') :
    sys'.receiver.output = sys.receiver.output ∧ sys'.receiver.closed = true := by
  cases hstep with
  | @senderRound s expired input =>
      cases senderIteration tr.cfg expired input s <;> exact ⟨rfl, hclosed⟩
  | @receiverRound data _ hdata =>
      have hbad : data.hasErrors = true ∨ data.seqNo ≠ sys.receiver.expected := by
        by_contra hgood
        simp only [not_or, Bool.not_eq_true, not_not] at hgood
        have hmem := h.sentPackets data (h.dataSent data hdata hgood.1)
        have hlt := (tr.packetList.getElem?_seqNo hmem).2.1
        have hall := h.closed.mp hclosed
        omega
      rw [System.afterReceiver, receiverIteration_discard (h.dataWhole data hdata) hbad]
      exact ⟨rfl, hclosed⟩
  | _ => exact ⟨rfl, hclosed⟩

end Transfer

/-- A window of two packets. -/
def oneByteCfg : SenderConfig := ⟨⟨10, 0⟩, 2, 10, 5⟩

/-- The memory of the packets happens to be zero. -/
def zeroedHeap : Int → FreshPacket := fun _ => ⟨⟨0, 0⟩, 0, 0⟩

/-- The buffer the sender starts with for a file of one byte. -/
def oneByteBuffer : DataBuffer :=
  let packet := dataPacket oneByteCfg zeroedHeap
  ⟨0, 1024, 0, 2, 2, .live (packet 0 [7]) :: .live (packet 1 []) :: List.replicate 1022 .null⟩

theorem oneByte_accepted : readFileIntoBuffer oneByteCfg zeroedHeap [7] = some (oneByteBuffer, 1) := by
  rw [readFileIntoBuffer, readFileLoop_of_true rfl, readFileLoop_of_false rfl]
  decide +kernel

theorem oneByteCfg_window : 1 ≤ oneByteCfg.window := by
  decide

/-- A file of one byte with a window of two packets. -/
def oneByteTransfer : Transfer where
  cfg := oneByteCfg
  heap := zeroedHeap
  file := [7]
  dataBuffer := oneByteBuffer
  veryLastSeqNo := 1
  accepted := oneByte_accepted
  window_pos := oneByteCfg_window

/-- The packet of `oneByteTransfer` with the given number. -/
def oneBytePacket (seqNo : Int) (chunk : Bytes) : GoBackNMessageStruct :=
  (dataPacket oneByteTransfer.cfg oneByteTransfer.heap seqNo chunk).packet

/-- **Safety of a transfer.** In every state the receiver has written exactly the payloads of the
packets it has accepted, a prefix of the file; `goodBytes` counts them; the output is closed exactly
when the last, empty packet has been accepted; and no step writes to a closed output. -/
theorem transfer_safety (tr : Transfer) (rule : TimerRule) (sys : System)
    (h : tr.Reachable rule sys) :
    sys.receiver.output =
        (List.range (sys.receiver.lastReceivedSeqNo + 1).toNat).flatMap tr.payload ∧
      sys.receiver.output <+: tr.file ∧
      sys.receiver.goodBytes = sys.receiver.output.length ∧
      (sys.receiver.closed = true ↔ sys.receiver.lastReceivedSeqNo = tr.veryLastSeqNo) ∧
      tr.payload tr.veryLastSeqNo.toNat = [] ∧
      ∀ a sys', Step tr.cfg rule sys a sys' → sys.receiver.closed = true →
        sys'.receiver.output = sys.receiver.output ∧ sys'.receiver.closed = true := by
  have hinv := h.inv
  have hrange := hinv.expectedRange
  have hlast := tr.veryLastSeqNo_eq
  have hpos := tr.packetList.nonempty
  refine ⟨?_, ?_, hinv.goodBytes, ?_, ?_, fun a sys' hstep hclosed =>
    tr.closed_step hinv hclosed hstep⟩
  · rw [hinv.output]
    exact tr.take_payloads (by rw [Receiver.expected] at hrange ⊢; omega)
  · have hfile : tr.packets.flatMap (·.data) = tr.file := by
      rw [Transfer.packets, filePackets, List.flatMap_map]
      exact packetsFrom_content tr.cfg tr.heap tr.file 0
    rw [hinv.output, ← hfile]
    refine ⟨(tr.packets.drop sys.receiver.expected.toNat).flatMap (·.data), ?_⟩
    rw [← List.flatMap_append, List.take_append_drop]
  · rw [hinv.closed, Receiver.expected]
    omega
  · have hp : tr.packets[tr.packets.length - 1]? = some tr.packets[tr.packets.length - 1] :=
      List.getElem?_eq_getElem (by omega)
    have hindex : tr.veryLastSeqNo.toNat = tr.packets.length - 1 := by omega
    rw [hindex, tr.payload_eq hp]
    exact (tr.packetList.lastEmpty _ _ hp).mpr (by omega)

/-- A round in which the socket takes two packets. -/
def sendTwo : IterationInput := ⟨none, true, ⟨1, 0⟩, [⟨1, 0⟩, ⟨1, 0⟩]⟩

/-- The transfer of one byte after the sender has sent both packets. -/
def oneByteSent : System :=
  oneByteTransfer.start.afterSender sendTwo (senderIteration oneByteTransfer.cfg false sendTwo
    (initialSender oneByteTransfer.dataBuffer oneByteTransfer.veryLastSeqNo))

theorem oneByteSent_step :
    Step oneByteTransfer.cfg codeTimer oneByteTransfer.start (.senderRound false sendTwo)
      oneByteSent := by
  refine .senderRound rfl (by decide) (fun _ h => by cases h) fun t h => ?_
  cases h
  exact (by decide : false = timerLt .never ⟨1, 0⟩)

theorem transfer_safety_oneByte :
    let sys := oneByteSent.afterReceiver
      (dataPacket oneByteTransfer.cfg oneByteTransfer.heap 0 oneByteTransfer.file).packet
    sys.receiver.output <+: oneByteTransfer.file ∧ sys.receiver.output = [7] :=
  ⟨(transfer_safety oneByteTransfer codeTimer _ ⟨_, .cons oneByteSent_step
      (.single (.receiverRound rfl (by decide +kernel)))⟩).2.1, by decide +kernel⟩

/-! ### Agreement of the two programs -/

/-- **The sender finishes last.** When the buffer of the sender is empty, so that its main loop ends,
the receiver has accepted every packet and written the whole file. Until then the sender holds every
packet that the receiver has not accepted, and no undamaged acknowledgement expects more than the packet
behind the last one accepted. -/
theorem finished_complete (tr : Transfer) (rule : TimerRule) (sys : System)
    (h : tr.Reachable rule sys) (s : Sender) (hs : sys.sender = some s) :
    (getBufferSize s.dataBuffer = 0 →
      sys.receiver.lastReceivedSeqNo = tr.veryLastSeqNo ∧ sys.receiver.output = tr.file ∧
        sys.receiver.closed = true) ∧
      (∀ seqNo, sys.receiver.lastReceivedSeqNo < seqNo → seqNo ≤ tr.veryLastSeqNo →
        ∃ d, getDataPacketFromBuffer s.dataBuffer seqNo = .live d ∧ d.packet.seqNo = seqNo ∧
          d.packet.data = tr.payload seqNo.toNat) ∧
      ∀ ack ∈ sys.ackChannel, ack.hasErrors = false →
        ack.seqNoExpected ≤ sys.receiver.lastReceivedSeqNo + 1 := by
  have hinv := h.inv
  have hholds := hinv.holds s hs
  have hsize := hholds.bufferSize
  have hacked : s.dataBuffer.minSeqNo ≤ sys.receiver.lastReceivedSeqNo + 1 := hinv.acknowledged s hs
  have hrange : 0 ≤ sys.receiver.lastReceivedSeqNo + 1 ∧
      sys.receiver.lastReceivedSeqNo + 1 ≤ tr.packets.length := hinv.expectedRange
  have hlast := tr.veryLastSeqNo_eq
  refine ⟨fun hempty => ?_, fun seqNo hnew hle => ?_, fun ack hack herr =>
    (hinv.ackExpected ack hack herr).2⟩
  · have hall : sys.receiver.expected = tr.packets.length := by
      unfold Receiver.expected
      omega
    refine ⟨by omega, ?_, hinv.closed.mpr hall⟩
    rw [hinv.output, hall, Int.toNat_natCast, List.take_length, Transfer.packets, filePackets,
      List.flatMap_map]
    exact packetsFrom_content tr.cfg tr.heap tr.file 0
  · obtain ⟨d, hget, hpacket⟩ := hholds.get_live (show s.dataBuffer.minSeqNo ≤ seqNo by omega) (by omega)
    refine ⟨d, hget, ?_, (tr.payload_eq hpacket).symm⟩
    rw [tr.packetList.numbered _ _ hpacket]
    omega

/-- A round that reads the acknowledgement of both packets. -/
def readLast : IterationInput := ⟨some (sendAck (oneBytePacket 1 []) 2), false, ⟨2, 0⟩, []⟩

/-- The transfer of one byte with both packets received. -/
def oneByteArrived : System :=
  (oneByteSent.afterReceiver (oneBytePacket 0 [7])).afterReceiver (oneBytePacket 1 [])

/-- The transfer of one byte after the sender has left its main loop. -/
def oneByteFinished : System :=
  oneByteArrived.afterSender readLast
    (oneByteArrived.sender.bind (senderIteration oneByteTransfer.cfg false readLast))

theorem oneByteFinished_step :
    Step oneByteTransfer.cfg codeTimer oneByteArrived (.senderRound false readLast) oneByteFinished := by
  obtain ⟨s, hs⟩ : ∃ s, oneByteArrived.sender = some s :=
    Option.isSome_iff_exists.mp (by decide +kernel)
  have hloop : ∀ s ∈ oneByteArrived.sender, 0 < getBufferSize s.dataBuffer := by decide +kernel
  have htimer : ∀ s ∈ oneByteArrived.sender, ∀ t ∈ handleReadable s readLast,
      false = timerLt t.timerExpiration ⟨2, 0⟩ := by decide +kernel
  have hread : sendAck (oneBytePacket 1 []) 2 ∈ oneByteArrived.ackChannel := by decide +kernel
  rw [oneByteFinished, hs, Option.bind_some]
  refine .senderRound hs (hloop s hs) (fun ack hack => ?_) (htimer s hs)
  cases hack
  exact hread

theorem oneByteFinished_reachable : oneByteTransfer.Reachable codeTimer oneByteFinished := by
  refine ⟨_, .cons oneByteSent_step (.cons (.receiverRound ?_ ?_) (.cons (.receiverRound ?_ ?_)
    (.single oneByteFinished_step)))⟩
  all_goals decide +kernel

theorem finished_complete_oneByte :
    ∃ s, oneByteFinished.sender = some s ∧ getBufferSize s.dataBuffer = 0 ∧
      oneByteFinished.receiver.output = [7] := by
  have hs : oneByteFinished.sender = some (oneByteFinished.sender.get (by decide +kernel)) :=
    (Option.some_get _).symm
  have hempty : getBufferSize (oneByteFinished.sender.get (by decide +kernel)).dataBuffer = 0 := by
    decide +kernel
  exact ⟨_, hs, hempty, ((finished_complete oneByteTransfer codeTimer _ oneByteFinished_reachable _ hs).1
    hempty).2.1⟩

end ComputerNetworking.GoBackN
