import ComputerNetworking.GoBackNFile

/-! What one round of the sender does to its counters and its buffer.

`SenderHolds packets s` says that the buffer of `s` holds the packets of the file from `minSeqNo` on.
Each part of a round gets one lemma under it; no later proof unfolds the round. -/

namespace ComputerNetworking.GoBackN

/-- The packets of a file: numbered from zero, well formed, and only the last one empty. -/
structure PacketList (packets : List GoBackNMessageStruct) : Prop where
  nonempty : 0 < packets.length
  numbered : ∀ (j : Nat) (p : GoBackNMessageStruct), packets[j]? = some p → p.seqNo = j
  sized : ∀ p ∈ packets, p.size = p.data.length + headerSize
  undamaged : ∀ p ∈ packets, p.hasErrors = false
  fits : ∀ p ∈ packets, p.data.length ≤ defaultPayloadSize
  lastEmpty : ∀ (j : Nat) (p : GoBackNMessageStruct), packets[j]? = some p →
    (p.data = [] ↔ j + 1 = packets.length)

theorem packetList_filePackets (cfg : SenderConfig) (heap : Int → FreshPacket) (file : Bytes) :
    PacketList (filePackets cfg heap file) where
  nonempty := by
    rw [filePackets, List.length_map]
    exact packetsFrom_length_pos cfg heap file 0
  numbered := fun j p hp => by
    rw [filePackets, List.getElem?_map, Option.map_eq_some_iff] at hp
    obtain ⟨d, hd, rfl⟩ := hp
    rw [packetsFrom_numbered cfg heap file 0 j d hd, Int.zero_add]
  sized := fun p hp => by
    obtain ⟨d, hd, rfl⟩ := List.mem_map.mp hp
    exact (packetsFrom_wellFormed cfg heap file 0 d hd).1
  undamaged := fun p hp => by
    obtain ⟨d, hd, rfl⟩ := List.mem_map.mp hp
    exact (packetsFrom_wellFormed cfg heap file 0 d hd).2.1
  fits := fun p hp => by
    obtain ⟨d, hd, rfl⟩ := List.mem_map.mp hp
    exact (packetsFrom_wellFormed cfg heap file 0 d hd).2.2
  lastEmpty := fun j p hp => by
    rw [filePackets, List.getElem?_map, Option.map_eq_some_iff] at hp
    obtain ⟨d, hd, rfl⟩ := hp
    rw [filePackets, List.length_map]
    exact packetsFrom_empty_iff cfg heap file 0 j d hd

/-- The buffer holds the packets of the file from `minSeqNo` on. -/
structure SenderHolds (packets : List GoBackNMessageStruct) (s : Sender) : Prop where
  queue : ∃ queue, Rep s.dataBuffer queue ∧
    queue.map (·.packet) = packets.drop s.dataBuffer.minSeqNo.toNat
  minNonneg : 0 ≤ s.dataBuffer.minSeqNo
  minLe : s.dataBuffer.minSeqNo ≤ packets.length
  veryLast : s.veryLastSeqNo = packets.length - 1

theorem senderHolds_initial {cfg : SenderConfig} {heap : Int → FreshPacket} {file : Bytes}
    {buffer : DataBuffer} {veryLastSeqNo : Int}
    (h : readFileIntoBuffer cfg heap file = some (buffer, veryLastSeqNo)) :
    SenderHolds (filePackets cfg heap file) (initialSender buffer veryLastSeqNo) := by
  obtain ⟨hrep, hmin, hlast⟩ := readFileIntoBuffer_some cfg heap h
  refine ⟨⟨_, hrep, ?_⟩, ?_, ?_, hlast⟩
  · change _ = List.drop buffer.minSeqNo.toNat _
    rw [hmin]
    rfl
  · change 0 ≤ buffer.minSeqNo
    omega
  · change buffer.minSeqNo ≤ _
    omega

namespace SenderHolds

variable {packets : List GoBackNMessageStruct} {s s' : Sender}

/-- The queue in the buffer goes from `minSeqNo` to the end of the file. -/
theorem exists_queue (h : SenderHolds packets s) : ∃ queue, Rep s.dataBuffer queue ∧
    queue.map (·.packet) = packets.drop s.dataBuffer.minSeqNo.toNat ∧
    s.dataBuffer.minSeqNo + queue.length = packets.length := by
  obtain ⟨queue, hrep, hq⟩ := h.queue
  have hlength : queue.length = packets.length - s.dataBuffer.minSeqNo.toNat := by
    rw [← List.length_drop, ← hq, List.length_map]
  have hmin := h.minNonneg
  have hle := h.minLe
  exact ⟨queue, hrep, hq, by omega⟩

theorem bufferSize (h : SenderHolds packets s) :
    (getBufferSize s.dataBuffer : Int) = packets.length - s.dataBuffer.minSeqNo := by
  obtain ⟨queue, hrep, -, hlen⟩ := h.exists_queue
  rw [getBufferSize, hrep.countEq]
  omega

theorem bufferContains (h : SenderHolds packets s) (seqNo : Int) :
    bufferContainsPacket s.dataBuffer seqNo = true ↔
      s.dataBuffer.minSeqNo ≤ seqNo ∧ seqNo < packets.length := by
  have hsize := h.bufferSize
  unfold getBufferSize at hsize
  rw [bufferContainsPacket, decide_eq_true_iff]
  omega

/-- Every number from `minSeqNo` on is found in the buffer. -/
theorem get_live (h : SenderHolds packets s) {seqNo : Int} (hmin : s.dataBuffer.minSeqNo ≤ seqNo)
    (hlt : seqNo < packets.length) :
    ∃ d, getDataPacketFromBuffer s.dataBuffer seqNo = .live d ∧
      packets[seqNo.toNat]? = some d.packet := by
  obtain ⟨queue, hrep, hq, hlen⟩ := h.exists_queue
  have hnonneg := h.minNonneg
  obtain ⟨j, rfl⟩ := Int.le.dest hmin
  have hj : j < queue.length := by omega
  have hd : queue[j]? = some queue[j] := List.getElem?_eq_getElem hj
  refine ⟨queue[j], hrep.get_eq hd, ?_⟩
  have hpacket := congrArg (fun l => l[j]?) hq
  simp only [List.getElem?_map, hd, Option.map_some, List.getElem?_drop] at hpacket
  rw [hpacket]
  congr 1
  omega

/-- Numbers below `minSeqNo` are not found. -/
theorem get_null (h : SenderHolds packets s) {seqNo : Int}
    (hout : seqNo < s.dataBuffer.minSeqNo ∨ packets.length ≤ seqNo) :
    getDataPacketFromBuffer s.dataBuffer seqNo = .null := by
  obtain ⟨queue, hrep, -, hlen⟩ := h.exists_queue
  exact hrep.get_eq_null (by omega)

/-- Damaged and old acknowledgements change nothing. -/
theorem handleAck_ignore {ack : GoBackNMessageStruct}
    (hack : ack.hasErrors = true ∨ ack.seqNoExpected ≤ s.lastAckSeqNo) :
    handleAck s ack = some s := by
  unfold handleAck
  rcases hack with herr | hold
  · rw [if_pos herr]
  · rw [if_neg (show ¬ack.seqNoExpected > s.lastAckSeqNo by omega)]
    split <;> rfl

/-- An acknowledgement that passes the test but frees nothing fails an assertion. -/
theorem handleAck_abort {ack : GoBackNMessageStruct} (herr : ack.hasErrors = false)
    (hnew : s.lastAckSeqNo < ack.seqNoExpected)
    (hmin : ack.seqNoExpected ≤ s.dataBuffer.minSeqNo) : handleAck s ack = none := by
  have hassert : ¬FreeAsserts s.dataBuffer s.dataBuffer.minSeqNo (ack.seqNoExpected - 1) := by
    unfold FreeAsserts
    omega
  simp only [handleAck, herr, Bool.false_eq_true, if_false, hnew, gt_iff_lt, if_true,
    getFirstSeqNoOfBuffer, freeBuffer, hassert, Option.bind_none]

/-- An acknowledgement for packets in the buffer frees exactly these. -/
theorem handleAck_free (h : SenderHolds packets s) {ack : GoBackNMessageStruct}
    (herr : ack.hasErrors = false) (hnew : s.lastAckSeqNo < ack.seqNoExpected)
    (hmin : s.dataBuffer.minSeqNo < ack.seqNoExpected) (hle : ack.seqNoExpected ≤ packets.length) :
    ∃ s', handleAck s ack = some s' ∧ SenderHolds packets s' ∧
      s'.dataBuffer.minSeqNo = ack.seqNoExpected ∧ s'.lastAckSeqNo = ack.seqNoExpected - 1 ∧
      s'.nextSendSeqNo = s.nextSendSeqNo := by
  obtain ⟨queue, hrep, hq, hlen⟩ := h.exists_queue
  have hnonneg := h.minNonneg
  obtain ⟨k, hk⟩ := Int.le.dest hmin.le
  obtain ⟨buffer, hfree, hrep', hmin', -⟩ := hrep.free_eq (k := k) (by omega) (by omega)
  have hq' : (queue.drop k).map (·.packet) = packets.drop buffer.minSeqNo.toNat := by
    rw [List.map_drop, hq, List.drop_drop, hmin']
    congr 1
    omega
  have hholds (expiration : Timeval) : SenderHolds packets { s with
      dataBuffer := buffer
      lastAckSeqNo := ack.seqNoExpected - 1
      timerExpiration := expiration } :=
    ⟨⟨_, hrep', hq'⟩, by change 0 ≤ buffer.minSeqNo; omega,
      by change buffer.minSeqNo ≤ _; omega, h.veryLast⟩
  simp only [handleAck, herr, Bool.false_eq_true, if_false, hnew, gt_iff_lt, if_true,
    getFirstSeqNoOfBuffer]
  rw [← hk, hfree, Option.bind_some]
  by_cases hsize : getBufferSize buffer > 0
  · have hcount := (hholds .never).bufferSize
    dsimp only at hcount
    obtain ⟨d, hget, -⟩ := (hholds .never).get_live
      (show buffer.minSeqNo ≤ ack.seqNoExpected by omega) (by omega)
    rw [← hk] at hget
    rw [if_pos hsize, hget, hk]
    exact ⟨_, rfl, hholds _, by change buffer.minSeqNo = _; omega, rfl, rfl⟩
  · rw [if_neg hsize, hk]
    exact ⟨_, rfl, hholds _, by change buffer.minSeqNo = _; omega, rfl, rfl⟩

theorem handleTimeout_eq (h : SenderHolds packets s) :
    ∃ s', handleTimeout s = some s' ∧ SenderHolds packets s' ∧
      s'.dataBuffer.minSeqNo = s.dataBuffer.minSeqNo ∧ s'.lastAckSeqNo = s.lastAckSeqNo ∧
      s'.nextSendSeqNo = s.lastAckSeqNo + 1 := by
  obtain ⟨queue, hrep, hq⟩ := h.queue
  obtain ⟨buffer, queue', hreset, hrep', hsame, hmin⟩ := hrep.resetTimers_eq
  rw [handleTimeout, hreset]
  refine ⟨_, rfl, ⟨⟨queue', hrep', ?_⟩, ?_, ?_, h.veryLast⟩, hmin, rfl, rfl⟩
  · rw [hsame, hq, hmin]
  · exact hmin ▸ h.minNonneg
  · exact hmin ▸ h.minLe

theorem afterSend_eq (h : SenderHolds packets s) (cfg : SenderConfig) (now : Timeval)
    (hmin : s.dataBuffer.minSeqNo ≤ s.nextSendSeqNo) (hlt : s.nextSendSeqNo < packets.length) :
    ∃ s', afterSend cfg s now = some s' ∧ SenderHolds packets s' ∧
      s'.dataBuffer.minSeqNo = s.dataBuffer.minSeqNo ∧ s'.lastAckSeqNo = s.lastAckSeqNo ∧
      s'.nextSendSeqNo = s.nextSendSeqNo + 1 := by
  obtain ⟨queue, hrep, hq, hlen⟩ := h.exists_queue
  obtain ⟨j, hj⟩ := Int.le.dest hmin
  obtain ⟨buffer, d, hd, hset, hrep', hmin', -⟩ :=
    hrep.setTimeout_eq (j := j) (by omega) (timeradd now cfg.timeout)
  rw [afterSend, ← hj, slotIndex_add]
  simp only [hset, Option.map_some]
  refine ⟨_, rfl, ⟨⟨_, hrep', ?_⟩, ?_, ?_, h.veryLast⟩, hmin', rfl, rfl⟩
  · rw [hmin', List.map_set, ← hq]
    exact set_of_getElem? (by rw [List.getElem?_map, hd, Option.map_some])
  · exact hmin' ▸ h.minNonneg
  · exact hmin' ▸ h.minLe

theorem afterSend_spec (h : SenderHolds packets s) {cfg : SenderConfig} {now : Timeval}
    (hmin : s.dataBuffer.minSeqNo ≤ s.nextSendSeqNo) (hlt : s.nextSendSeqNo < packets.length)
    (hsend : afterSend cfg s now = some s') : SenderHolds packets s' ∧
      s'.dataBuffer.minSeqNo = s.dataBuffer.minSeqNo ∧ s'.lastAckSeqNo = s.lastAckSeqNo ∧
      s'.nextSendSeqNo = s.nextSendSeqNo + 1 := by
  obtain ⟨t, ht, hrest⟩ := h.afterSend_eq cfg now hmin hlt
  rw [hsend] at ht
  cases ht
  exact hrest

theorem sendGuard_iff (h : SenderHolds packets s) (cfg : SenderConfig) :
    sendGuard cfg s = true ↔
      s.nextSendSeqNo < s.lastAckSeqNo + cfg.window ∧ s.nextSendSeqNo < packets.length := by
  have hlast := h.veryLast
  rw [sendGuard, decide_eq_true_iff]
  omega

theorem selectGuard_iff (h : SenderHolds packets s) (cfg : SenderConfig) :
    selectGuard cfg s = true ↔
      s.nextSendSeqNo < s.lastAckSeqNo + cfg.window ∧ s.nextSendSeqNo < packets.length := by
  have hlast := h.veryLast
  have hsize := h.bufferSize
  unfold getBufferSize at hsize
  rw [selectGuard, decide_eq_true_iff, getLastSeqNoOfBuffer]
  omega

end SenderHolds

/-- What the send loop has done after sending `count` packets of the file. -/
structure SentOn (cfg : SenderConfig) (packets : List GoBackNMessageStruct) (s s' : Sender)
    (sent : List GoBackNMessageStruct) (count : Nat) : Prop where
  holds : SenderHolds packets s'
  minSeqNo : s'.dataBuffer.minSeqNo = s.dataBuffer.minSeqNo
  lastAckSeqNo : s'.lastAckSeqNo = s.lastAckSeqNo
  nextSendSeqNo : s'.nextSendSeqNo = s.nextSendSeqNo + count
  sent : sent = (packets.drop s.nextSendSeqNo.toNat).take count
  bounded : 0 < count → s.dataBuffer.minSeqNo ≤ s.nextSendSeqNo ∧
    s'.nextSendSeqNo ≤ packets.length ∧ s'.nextSendSeqNo ≤ s.lastAckSeqNo + cfg.window

theorem SentOn.refl {cfg : SenderConfig} {packets : List GoBackNMessageStruct} {s : Sender}
    (h : SenderHolds packets s) : SentOn cfg packets s s [] 0 where
  holds := h
  minSeqNo := rfl
  lastAckSeqNo := rfl
  nextSendSeqNo := by simp
  sent := by simp
  bounded := fun hpos => absurd hpos (Nat.lt_irrefl 0)

section SendLoop

variable {cfg : SenderConfig} {packets : List GoBackNMessageStruct} {s s' : Sender}
  {sent : List GoBackNMessageStruct}

theorem sendLoop_nil (hloop : sendLoop cfg [] s = some (s', sent)) : s' = s ∧ sent = [] := by
  unfold sendLoop at hloop
  split at hloop
  · split at hloop <;> cases hloop
    exact ⟨rfl, rfl⟩
  · cases hloop
    exact ⟨rfl, rfl⟩

/-- One round of the send loop: the loop ends, or the next packet is sent. -/
theorem sendLoop_cons (h : SenderHolds packets s) {now : Timeval} {clock : List Timeval}
    (hloop : sendLoop cfg (now :: clock) s = some (s', sent)) :
    sendGuard cfg s = false ∧ s' = s ∧ sent = [] ∨
      ∃ (d : DataPacket) (t : Sender) (rest : List GoBackNMessageStruct),
        sendGuard cfg s = true ∧ s.dataBuffer.minSeqNo ≤ s.nextSendSeqNo ∧
        packets[s.nextSendSeqNo.toNat]? = some d.packet ∧ afterSend cfg s now = some t ∧
        sendLoop cfg clock t = some (s', rest) ∧ sent = d.packet :: rest := by
  unfold sendLoop at hloop
  split at hloop
  swap
  · rename_i hguard
    cases hloop
    exact .inl ⟨by simpa using hguard, rfl, rfl⟩
  · rename_i hguard
    have hlt := ((h.sendGuard_iff cfg).mp hguard).2
    by_cases hmin : s.dataBuffer.minSeqNo ≤ s.nextSendSeqNo
    swap
    · rw [h.get_null (Or.inl (by omega))] at hloop
      cases hloop
    obtain ⟨d, hget, hpacket⟩ := h.get_live hmin hlt
    obtain ⟨t, hafter, -⟩ := h.afterSend_eq cfg now hmin hlt
    simp only [hget, hafter, Option.bind_some, Option.map_eq_some_iff] at hloop
    obtain ⟨⟨u, rest⟩, hrest, heq⟩ := hloop
    cases heq
    exact .inr ⟨d, t, rest, hguard, hmin, hpacket, hafter, hrest, rfl⟩

/-- The send loop sends consecutive packets of the file from `nextSendSeqNo` on, inside the
window. -/
theorem sendLoop_spec (h : SenderHolds packets s) (hnext : 0 ≤ s.nextSendSeqNo)
    (clock : List Timeval) (hloop : sendLoop cfg clock s = some (s', sent)) :
    ∃ count, SentOn cfg packets s s' sent count := by
  induction clock generalizing s sent with
  | nil =>
      obtain ⟨rfl, rfl⟩ := sendLoop_nil hloop
      exact ⟨0, .refl h⟩
  | cons now clock ih =>
      rcases sendLoop_cons h hloop with ⟨-, rfl, rfl⟩ | ⟨d, t, rest, hguard, hmin, hpacket, hsend, hrest, rfl⟩
      · exact ⟨0, .refl h⟩
      rw [h.sendGuard_iff] at hguard
      obtain ⟨hholds, hmin', hack, hnext'⟩ := h.afterSend_spec hmin hguard.2 hsend
      obtain ⟨count, hsent⟩ := ih hholds (by omega) hrest
      have hbounded := hsent.bounded
      have hcount := hsent.nextSendSeqNo
      refine ⟨count + 1, ⟨hsent.holds, hsent.minSeqNo.trans hmin', hsent.lastAckSeqNo.trans hack,
        by push_cast; omega, ?_, fun _ => by omega⟩⟩
      have htoNat : t.nextSendSeqNo.toNat = s.nextSendSeqNo.toNat + 1 := by omega
      obtain ⟨hlt, hd⟩ := List.getElem?_eq_some_iff.mp hpacket
      rw [hsent.sent, htoNat, List.drop_eq_getElem_cons hlt, hd, List.take_succ_cons]

/-- With `nextSendSeqNo` in the buffer the send loop meets no missing packet. -/
theorem sendLoop_isSome (h : SenderHolds packets s) (hmin : s.dataBuffer.minSeqNo ≤ s.nextSendSeqNo)
    (clock : List Timeval) : ∃ s' sent, sendLoop cfg clock s = some (s', sent) := by
  induction clock generalizing s with
  | nil =>
      unfold sendLoop
      split
      · rename_i hguard
        rw [h.sendGuard_iff] at hguard
        obtain ⟨d, hget, -⟩ := h.get_live hmin hguard.2
        exact ⟨s, [], by rw [hget]⟩
      · exact ⟨s, [], rfl⟩
  | cons now clock ih =>
      unfold sendLoop
      split
      · rename_i hguard
        rw [h.sendGuard_iff] at hguard
        obtain ⟨d, hget, -⟩ := h.get_live hmin hguard.2
        obtain ⟨t, hafter, hholds, hmin', hack, hnext'⟩ := h.afterSend_eq cfg now hmin hguard.2
        obtain ⟨u, rest, hrest⟩ := ih hholds (by omega)
        exact ⟨u, d.packet :: rest, by simp only [hget, hafter, Option.bind_some, hrest, Option.map_some]⟩
      · exact ⟨s, [], rfl⟩

end SendLoop

/-- What the first part of a round does with a message from the socket. -/
inductive AckHandled (packets : List GoBackNMessageStruct) (s : Sender) (input : IterationInput) :
    Sender → Prop where
  | ignored (hold : ∀ ack, input.readable = some ack →
      ack.hasErrors = true ∨ ack.seqNoExpected ≤ s.lastAckSeqNo) : AckHandled packets s input s
  | freed {s' : Sender} (ack : GoBackNMessageStruct) (hread : input.readable = some ack)
      (herr : ack.hasErrors = false) (hnew : s.lastAckSeqNo < ack.seqNoExpected)
      (hmin : s.dataBuffer.minSeqNo < ack.seqNoExpected) (holds : SenderHolds packets s')
      (minSeqNo : s'.dataBuffer.minSeqNo = ack.seqNoExpected)
      (lastAckSeqNo : s'.lastAckSeqNo = ack.seqNoExpected - 1)
      (nextSendSeqNo : s'.nextSendSeqNo = s.nextSendSeqNo) : AckHandled packets s input s'

/-- What the second part of a round does about the timer. -/
inductive TimeoutHandled (packets : List GoBackNMessageStruct) (expired : Bool) (s : Sender) :
    Sender → Prop where
  | running (h : expired = false) : TimeoutHandled packets expired s s
  | expired {s' : Sender} (h : expired = true) (holds : SenderHolds packets s')
      (minSeqNo : s'.dataBuffer.minSeqNo = s.dataBuffer.minSeqNo)
      (lastAckSeqNo : s'.lastAckSeqNo = s.lastAckSeqNo)
      (nextSendSeqNo : s'.nextSendSeqNo = s.lastAckSeqNo + 1) : TimeoutHandled packets expired s s'

section Round

variable {cfg : SenderConfig} {packets : List GoBackNMessageStruct} {s s' : Sender}
  {input : IterationInput} {expired : Bool} {sent : List GoBackNMessageStruct}

theorem AckHandled.holds (h : SenderHolds packets s) (hack : AckHandled packets s input s') :
    SenderHolds packets s' := by
  cases hack with
  | ignored => exact h
  | freed _ _ _ _ _ holds => exact holds

theorem TimeoutHandled.holds (h : SenderHolds packets s)
    (htime : TimeoutHandled packets expired s s') : SenderHolds packets s' := by
  cases htime with
  | running => exact h
  | expired _ holds => exact holds

/-- The acknowledgements that reach the sender are for packets of the file. -/
def AckBounded (packets : List GoBackNMessageStruct) (input : IterationInput) : Prop :=
  ∀ ack, input.readable = some ack → ack.hasErrors = false → ack.seqNoExpected ≤ packets.length

theorem handleReadable_spec (h : SenderHolds packets s) (hbound : AckBounded packets input)
    (hread : handleReadable s input = some s') : AckHandled packets s input s' := by
  unfold handleReadable at hread
  split at hread
  · rename_i ack hack
    by_cases hold : ack.hasErrors = true ∨ ack.seqNoExpected ≤ s.lastAckSeqNo
    · rw [SenderHolds.handleAck_ignore hold] at hread
      cases hread
      refine .ignored fun ack' hack' => ?_
      rw [hack] at hack'
      cases hack'
      exact hold
    · simp only [not_or, Bool.not_eq_true, Int.not_le] at hold
      by_cases hmin : ack.seqNoExpected ≤ s.dataBuffer.minSeqNo
      · rw [SenderHolds.handleAck_abort hold.1 hold.2 hmin] at hread
        cases hread
      · obtain ⟨t, hfree, hrest⟩ := h.handleAck_free hold.1 hold.2 (by omega)
          (hbound ack hack hold.1)
        rw [hfree] at hread
        cases hread
        exact .freed ack hack hold.1 hold.2 (by omega) hrest.1 hrest.2.1 hrest.2.2.1 hrest.2.2.2
  · rename_i hnone
    cases hread
    refine .ignored fun ack hack => ?_
    rw [hnone] at hack
    cases hack

theorem beforeSend_spec (h : SenderHolds packets s) (hbound : AckBounded packets input)
    (hbefore : beforeSend expired input s = some s') :
    ∃ t, handleReadable s input = some t ∧ AckHandled packets s input t ∧
      TimeoutHandled packets expired t s' := by
  rw [beforeSend, Option.bind_eq_some_iff] at hbefore
  obtain ⟨t, hread, htime⟩ := hbefore
  have hack := handleReadable_spec h hbound hread
  refine ⟨t, hread, hack, ?_⟩
  split at htime
  · rename_i hexpired
    obtain ⟨u, heq, holds, hmin, hlast, hnext⟩ := (hack.holds h).handleTimeout_eq
    rw [heq] at htime
    cases htime
    exact .expired hexpired holds hmin hlast hnext
  · rename_i hexpired
    cases htime
    exact .running (by simpa using hexpired)

/-- A round of the sender that does not end the program: the message is handled, then the timer,
then packets are sent. -/
theorem senderIteration_spec (h : SenderHolds packets s) (hbound : AckBounded packets input)
    (hnext : 0 ≤ s.nextSendSeqNo) (hlast : 0 ≤ s.lastAckSeqNo)
    (hround : senderIteration cfg expired input s = some (s', sent)) :
    ∃ t u count, handleReadable s input = some t ∧ AckHandled packets s input t ∧
      TimeoutHandled packets expired t u ∧ SentOn cfg packets u s' sent count := by
  rw [senderIteration, Option.bind_eq_some_iff] at hround
  obtain ⟨u, hbefore, hsend⟩ := hround
  obtain ⟨t, hread, hack, htime⟩ := beforeSend_spec h hbound hbefore
  have hholds := htime.holds (hack.holds h)
  have hnonneg : 0 ≤ u.nextSendSeqNo := by
    cases htime <;> cases hack <;> omega
  split at hsend
  · obtain ⟨count, hsent⟩ := sendLoop_spec hholds hnonneg input.clock hsend
    exact ⟨t, u, count, hread, hack, htime, hsent⟩
  · cases hsend
    exact ⟨t, s', 0, hread, hack, htime, .refl hholds⟩

end Round

end ComputerNetworking.GoBackN
