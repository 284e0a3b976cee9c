import ComputerNetworking.ArqModel

/-! What holds in every run of the simulated Go-Back-N protocol: the packet buffer holds the window, the timers
are those of the packets in it, and the assertions of the sender hold. -/

namespace ComputerNetworking.Arq

open OrderedMap ShortestPath Transition

variable {T : Type} [Costs T] {p : SenderParams T} {now : T} {s : SenderState T} {sent : Int}

/-- The sender at time `now`, when the packets before `sent` have been sent at least once. -/
structure SenderInv (p : SenderParams T) (now : T) (s : SenderState T) (sent : Int) : Prop where
  acked_le : s.lastAckSeqNo ≤ s.nextSendSeqNo
  next_le : s.nextSendSeqNo ≤ sent
  sent_le : sent ≤ s.lastAckSeqNo + p.window
  keys : ∀ i, i ∈ s.packetBuffer ↔ s.lastAckSeqNo ≤ i ∧ i < sent
  size : (s.packetBuffer.size : Int) = sent - s.lastAckSeqNo
  packets : ∀ i data, (PacketBuffer.info s.packetBuffer i).packet = some data → data = ⟨i, p.packetSize⟩
  sendTimer : s.nextSendTimer = if s.nextSendTime = ⊤ then none else some s.nextSendTime
  expTimer : s.expirationTimer = if s.timerExpiration = ⊤ then none else some s.timerExpiration
  room : s.nextSendTime ≠ ⊤ → s.nextSendSeqNo < s.lastAckSeqNo + p.window
  exhausted : s.nextSendTime = ⊤ → s.nextSendSeqNo = s.lastAckSeqNo + p.window
  now_lt : now < ⊤
  now_le_send : now ≤ s.nextSendTime
  now_le_exp : now ≤ s.timerExpiration
  timeouts : ∀ i, s.lastAckSeqNo ≤ i → i < s.nextSendSeqNo →
    ∃ x, (PacketBuffer.info s.packetBuffer i).timeout = some x ∧ s.timerExpiration ≤ x ∧ x ≤ now + p.timeout
  ordered : ∀ i j x y, s.lastAckSeqNo ≤ i → i ≤ j → j < s.nextSendSeqNo →
    (PacketBuffer.info s.packetBuffer i).timeout = some x → (PacketBuffer.info s.packetBuffer j).timeout = some y →
    x ≤ y
  ackBytes : s.ackBytes = p.packetSize.tdiv 8 * s.lastAckSeqNo

theorem scheduleAt_none {t : T} (h : now ≤ t) : scheduleAt now t none = .ok (some t) := by
  simp [scheduleAt, h]

/-! ### Sending -/

/-- The data packet comes from the buffer, or is put into it. -/
theorem SenderInv.getDataPacket (h : SenderInv p now s sent) {seqNo : Int} (hacked : s.lastAckSeqNo ≤ seqNo)
    (hsent : seqNo ≤ sent) (hwindow : seqNo < s.lastAckSeqNo + p.window) (timer : Option T) :
    ∃ buffer, { s with nextSendTimer := timer }.getDataPacket p seqNo =
        .ok (⟨seqNo, p.packetSize⟩, { s with nextSendTimer := timer, packetBuffer := buffer }) ∧
      (∀ i, buffer[i]? =
        if seqNo = i then some { PacketBuffer.info s.packetBuffer seqNo with packet := some ⟨seqNo, p.packetSize⟩ }
        else s.packetBuffer[i]?) ∧
      (buffer.size : Int) = max sent (seqNo + 1) - s.lastAckSeqNo := by
  have hfirst : (s.packetBuffer.keys.head?.any fun first => decide (seqNo < first)) = false := by
    rw [← Std.TreeMap.minKey?_eq_head?_keys]
    cases hmin : s.packetBuffer.minKey? with
    | none => rfl
    | some first =>
        obtain ⟨hmem, hall⟩ := minKey?_spec _ hmin
        simp only [Option.any_some, decide_eq_false_iff_not, not_lt]
        by_cases hin : seqNo ∈ s.packetBuffer
        · exact hall seqNo hin
        · have hb := (h.keys first).mp hmem
          have hnot := mt (h.keys seqNo).mpr hin
          omega
  have hsize : ((s.packetBuffer.insert seqNo (PacketBuffer.info s.packetBuffer seqNo)).size : Int) =
      max sent (seqNo + 1) - s.lastAckSeqNo := by
    have hcount := h.size
    by_cases hin : seqNo ∈ s.packetBuffer
    · have hb := (h.keys seqNo).mp hin
      rw [size_insert_of_mem _ hin, hcount]
      omega
    · have hb := mt (h.keys seqNo).mpr hin
      rw [size_insert_of_notMem _ hin]
      push_cast
      omega
  have hroom : ¬p.window < ((s.packetBuffer.insert seqNo (PacketBuffer.info s.packetBuffer seqNo)).size : Int) := by
    have := h.sent_le
    omega
  unfold SenderState.getDataPacket
  dsimp only
  rw [hfirst]
  rw [if_neg (by simp), if_neg hroom]
  split
  · next data hdata =>
      obtain rfl := h.packets seqNo data hdata
      refine ⟨_, rfl, fun i => ?_, hsize⟩
      rw [getElem?_insert, ← hdata]
  · next hnone =>
      refine ⟨_, rfl, fun i => ?_, ?_⟩
      · rw [getElem?_insert, getElem?_insert]
        split <;> rfl
      · rw [size_insert_of_mem _ ((mem_insert _).mpr (Or.inl rfl))]
        exact hsize

/-- The timer events leave the invariant as it is but for the flag of the timer. -/
theorem SenderInv.sendTimer_some (h : SenderInv p now s sent) {t : T} (ht : s.nextSendTimer = some t) :
    s.nextSendTime = t ∧ t ≠ ⊤ := by
  rw [h.sendTimer] at ht
  split at ht
  · simp at ht
  · next hne =>
      obtain rfl := Option.some.inj ht
      exact ⟨rfl, hne⟩

theorem SenderInv.expTimer_some (h : SenderInv p now s sent) {t : T} (ht : s.expirationTimer = some t) :
    s.timerExpiration = t ∧ t ≠ ⊤ := by
  rw [h.expTimer] at ht
  split at ht
  · simp at ht
  · next hne =>
      obtain rfl := Option.some.inj ht
      exact ⟨rfl, hne⟩

/-- Time goes on, but not past a timer. -/
theorem SenderInv.advance (h : SenderInv p now s sent) {t : T} (hnow : now ≤ t) (hfin : t < ⊤)
    (hsend : ∀ x, s.nextSendTimer = some x → t ≤ x) (hexp : ∀ x, s.expirationTimer = some x → t ≤ x) :
    SenderInv p t s sent := by
  refine { h with now_lt := hfin, now_le_send := ?_, now_le_exp := ?_, timeouts := ?_ }
  · by_cases htop : s.nextSendTime = ⊤
    · rw [htop]
      exact le_top
    · exact hsend _ (by rw [h.sendTimer, if_neg htop])
  · by_cases htop : s.timerExpiration = ⊤
    · rw [htop]
      exact le_top
    · exact hexp _ (by rw [h.expTimer, if_neg htop])
  · intro i hi hj
    obtain ⟨x, hx, hlow, hup⟩ := h.timeouts i hi hj
    exact ⟨x, hx, hlow, hup.trans (Costs.add_mono _ hnow)⟩

omit [Costs T] in
theorem info_insert (buffer : PacketBuffer T) (k i : Int) (x : PacketInfo T) :
    PacketBuffer.info (buffer.insert k x) i = if k = i then x else PacketBuffer.info buffer i := by
  rw [PacketBuffer.info, getElem?_insert]
  split <;> rfl

/-- The timer for the next send: the next packet of the window is sent, and no assertion fails. -/
theorem SenderInv.handleTimer0 (h : SenderInv p now s sent) (ht : s.nextSendTimer = some now) :
    ∃ s', { s with nextSendTimer := none }.handleTimer0 p now = .ok (⟨s.nextSendSeqNo, p.packetSize⟩, s') ∧
      SenderInv p now s' (max sent (s.nextSendSeqNo + 1)) ∧ s'.lastAckSeqNo = s.lastAckSeqNo ∧
      s'.nextSendSeqNo = s.nextSendSeqNo + 1 ∧
      s'.nextSendTime =
        (if s.nextSendSeqNo + 1 ≥ s.lastAckSeqNo + p.window then ⊤ else now + p.interval) ∧
      s'.timerExpiration =
        (if now + p.timeout < s.timerExpiration then now + p.timeout else s.timerExpiration) ∧
      s'.sentBytes = s.sentBytes + p.packetSize.tdiv 8 := by
  obtain ⟨hsend, hne⟩ := h.sendTimer_some ht
  have hroom := h.room (hsend ▸ hne)
  obtain ⟨hfinT, hfinI⟩ := p.finite now h.now_lt
  obtain ⟨buffer, hget, hbuf, hsize⟩ := h.getDataPacket h.acked_le h.next_le hroom none
  have hacked := h.acked_le
  have hnext := h.next_le
  have hsent := h.sent_le
  let nextTimer := now + p.timeout
  let entry : PacketInfo T := ⟨some ⟨s.nextSendSeqNo, p.packetSize⟩, some nextTimer⟩
  have hinfo : ∀ i, PacketBuffer.info buffer i =
      if s.nextSendSeqNo = i then
        { PacketBuffer.info s.packetBuffer s.nextSendSeqNo with packet := some ⟨s.nextSendSeqNo, p.packetSize⟩ }
      else PacketBuffer.info s.packetBuffer i := by
    intro i
    rw [PacketBuffer.info, hbuf]
    split <;> rfl
  have hmem : ∀ i, i ∈ buffer ↔ s.nextSendSeqNo = i ∨ i ∈ s.packetBuffer := by
    intro i
    rw [mem_iff, mem_iff, hbuf]
    split <;> simp_all
  let s' : SenderState T :=
    { packetBuffer := buffer.insert s.nextSendSeqNo entry
      lastAckSeqNo := s.lastAckSeqNo
      nextSendSeqNo := s.nextSendSeqNo + 1
      nextSendTime := if s.nextSendSeqNo + 1 ≥ s.lastAckSeqNo + p.window then ⊤ else now + p.interval
      timerExpiration := if nextTimer < s.timerExpiration then nextTimer else s.timerExpiration
      nextSendTimer :=
        if s.nextSendSeqNo + 1 ≥ s.lastAckSeqNo + p.window then none else some (now + p.interval)
      expirationTimer := if nextTimer < s.timerExpiration then some nextTimer else s.expirationTimer
      sentBytes := s.sentBytes + p.packetSize.tdiv 8
      ackBytes := s.ackBytes }
  have hrun : { s with nextSendTimer := none }.handleTimer0 p now =
      .ok (⟨s.nextSendSeqNo, p.packetSize⟩, s') := by
    have hentry : { PacketBuffer.info buffer s.nextSendSeqNo with timeout := some nextTimer } = entry := by
      rw [hinfo, if_pos rfl]
    unfold SenderState.handleTimer0
    dsimp only
    rw [if_neg (not_not.mpr hsend.symm), if_neg (not_not.mpr hroom), hget]
    simp only [Except.bind]
    rw [hentry]
    by_cases hlt : nextTimer < s.timerExpiration <;>
      by_cases hfull : s.nextSendSeqNo + 1 ≥ s.lastAckSeqNo + p.window <;>
      simp [SenderState.expireBy, SenderState.scheduleSend, scheduleAt_none (Costs.le_add now _), s', nextTimer,
        Except.map, hlt, hfull]
  have hentries : ∀ i, PacketBuffer.info s'.packetBuffer i =
      if s.nextSendSeqNo = i then entry else PacketBuffer.info s.packetBuffer i := by
    intro i
    rw [info_insert, hinfo]
    split <;> rfl
  have hexp : s'.timerExpiration ≤ nextTimer ∧ s'.timerExpiration ≤ s.timerExpiration := by
    by_cases hlt : nextTimer < s.timerExpiration
    · simp [s', hlt, hlt.le]
    · simp [s', hlt, not_lt.mp hlt]
  refine ⟨s', hrun, ⟨?_, ?_, ?_, ?_, ?_, ?_, ?_, ?_, ?_, ?_, h.now_lt, ?_, ?_, ?_, ?_, h.ackBytes⟩, rfl, rfl, rfl,
    rfl, rfl⟩
  · simp only [s']
    omega
  · exact le_max_right _ _
  · simp only [s']
    omega
  · intro i
    simp only [s', mem_insert, hmem, h.keys]
    omega
  · rw [size_insert_of_mem _ ((hmem _).mpr (Or.inl rfl))]
    exact hsize
  · intro i data hdata
    rw [hentries] at hdata
    split at hdata
    · next heq => exact heq ▸ (Option.some.inj hdata).symm
    · exact h.packets i data hdata
  · by_cases hfull : s.nextSendSeqNo + 1 ≥ s.lastAckSeqNo + p.window <;> simp [s', hfull, hfinI.ne]
  · by_cases hlt : nextTimer < s.timerExpiration
    · simp [s', hlt, nextTimer, hfinT.ne]
    · simp [s', hlt, h.expTimer]
  · by_cases hfull : s.nextSendSeqNo + 1 ≥ s.lastAckSeqNo + p.window
    · simp [s', hfull]
    · intro _
      simp only [s']
      omega
  · by_cases hfull : s.nextSendSeqNo + 1 ≥ s.lastAckSeqNo + p.window
    · intro _
      simp only [s']
      omega
    · simp [s', hfull, hfinI.ne]
  · by_cases hfull : s.nextSendSeqNo + 1 ≥ s.lastAckSeqNo + p.window
    · simp [s', hfull]
    · simp [s', hfull, Costs.le_add]
  · by_cases hlt : nextTimer < s.timerExpiration
    · simp [s', hlt, nextTimer, Costs.le_add]
    · simp [s', hlt, h.now_le_exp]
  · intro i hi hj
    rw [hentries]
    by_cases heq : s.nextSendSeqNo = i
    · exact ⟨nextTimer, by simp [heq, entry], hexp.1, le_rfl⟩
    · simp only [s'] at hi hj
      obtain ⟨x, hx, hlow, hup⟩ := h.timeouts i hi (by omega)
      exact ⟨x, by simp [heq, hx], hexp.2.trans hlow, hup⟩
  · -- the new timeout is the latest
    intro i j x y hi hij hj hx hy
    simp only [s'] at hi hj
    rw [hentries] at hx hy
    by_cases hjn : s.nextSendSeqNo = j
    · rw [if_pos hjn] at hy
      obtain rfl : nextTimer = y := Option.some.inj hy
      by_cases hin : s.nextSendSeqNo = i
      · rw [if_pos hin] at hx
        exact (Option.some.inj hx).ge
      · rw [if_neg hin] at hx
        obtain ⟨x', hx', -, hup⟩ := h.timeouts i hi (by omega)
        obtain rfl : x = x' := Option.some.inj (hx.symm.trans hx')
        exact hup
    · rw [if_neg hjn] at hy
      rw [if_neg (by omega)] at hx
      exact h.ordered i j x y hi hij (by omega) hx hy

/-! ### Timeouts -/

/-- The time of the next send once the sender has been woken. -/
def wokenTime (now : T) (s : SenderState T) : T :=
  if s.nextSendTime = ⊤ then now else s.nextSendTime

theorem wake_eq (hsend : s.nextSendTimer = if s.nextSendTime = ⊤ then none else some s.nextSendTime) :
    s.wake now = .ok { s with
      nextSendTime := wokenTime now s
      nextSendTimer := some (wokenTime now s) } := by
  unfold SenderState.wake wokenTime
  by_cases htop : s.nextSendTime = ⊤
  · rw [if_pos htop] at hsend
    simp [htop, hsend, scheduleAt_none le_rfl, Except.map]
  · rw [if_neg htop] at hsend
    rw [if_neg htop, if_neg htop, ← hsend]

theorem SenderInv.wokenTime_spec (h : SenderInv p now s sent) :
    wokenTime now s ≠ ⊤ ∧ now ≤ wokenTime now s := by
  unfold wokenTime
  split
  · exact ⟨h.now_lt.ne, le_rfl⟩
  · next htop => exact ⟨htop, h.now_le_send⟩

/-- Going back to the first packet that is not acknowledged, with the sender woken. -/
theorem SenderInv.goBack (h : SenderInv p now s sent) :
    SenderInv p now { s with
      nextSendTime := wokenTime now s
      nextSendTimer := some (wokenTime now s)
      nextSendSeqNo := s.lastAckSeqNo } sent := by
  obtain ⟨hwoken, hlater⟩ := h.wokenTime_spec
  have hpos := p.window_pos
  refine ⟨le_rfl, h.acked_le.trans h.next_le, h.sent_le, h.keys, h.size, h.packets, ?_, h.expTimer, ?_, ?_, h.now_lt,
    hlater, h.now_le_exp, ?_, ?_, h.ackBytes⟩
  · simp [hwoken]
  · intro _
    dsimp only
    omega
  · intro htop
    exact absurd htop hwoken
  · intro i hi hj
    dsimp only at hi hj
    omega
  · intro i j x y hi hij hj
    dsimp only at hi hj
    omega

/-- A timeout: the sender goes back to the first packet that is not acknowledged. -/
theorem SenderInv.handleTimer1 (h : SenderInv p now s sent) (ht : s.expirationTimer = some now) :
    ∃ s', { s with expirationTimer := none }.handleTimer1 now = .ok s' ∧ SenderInv p now s' sent ∧
      s'.lastAckSeqNo = s.lastAckSeqNo ∧ s'.sentBytes = s.sentBytes := by
  obtain ⟨hexp, hne⟩ := h.expTimer_some ht
  have hacked := h.acked_le
  have hnext := h.next_le
  obtain ⟨hwoken, hlater⟩ := h.wokenTime_spec
  have hinfo : ∀ i, (PacketBuffer.info (s.packetBuffer.map fun _ info =>
      { info with timeout := some (⊤ : T) }) i).packet = (PacketBuffer.info s.packetBuffer i).packet := by
    intro i
    rw [PacketBuffer.info, PacketBuffer.info, getElem?_map]
    cases s.packetBuffer[i]? <;> rfl
  have hres : { s with expirationTimer := none }.handleTimer1 now =
      .ok { s with
        expirationTimer := none, nextSendTime := wokenTime now s, nextSendTimer := some (wokenTime now s),
        nextSendSeqNo := s.lastAckSeqNo }.resetTimers := by
    rw [SenderState.handleTimer1, if_neg (not_not.mpr hexp.symm),
      wake_eq (s := { s with expirationTimer := none }) h.sendTimer]
    rfl
  refine ⟨_, hres, ?_, rfl, rfl⟩
  have hpos := p.window_pos
  refine ⟨le_rfl, hacked.trans hnext, h.sent_le, ?_, ?_, ?_, ?_, ?_, ?_, ?_, h.now_lt, ?_, le_top, ?_, ?_, h.ackBytes⟩
  · intro i
    simp only [SenderState.resetTimers]
    rw [mem_iff, getElem?_map, ← h.keys, mem_iff]
    simp
  · simp only [SenderState.resetTimers]
    rw [Std.TreeMap.size_map]
    exact h.size
  · intro i data hdata
    rw [SenderState.resetTimers, hinfo] at hdata
    exact h.packets i data hdata
  · simp [SenderState.resetTimers, hwoken]
  · simp [SenderState.resetTimers]
  · intro _
    simp only [SenderState.resetTimers]
    omega
  · intro htop
    exact absurd htop hwoken
  · exact hlater
  · intro i hi hj
    simp only [SenderState.resetTimers] at hi hj
    omega
  · intro i j x y hi hij hj
    simp only [SenderState.resetTimers] at hi hj
    omega

/-! ### Acknowledgements -/

omit [Costs T] in
theorem eraseFrom_spec {count : Nat} {first : Int} {buffer : PacketBuffer T}
    (hall : ∀ i, first ≤ i → i < first + count → i ∈ buffer) :
    ∃ buffer', SenderState.eraseFrom count first buffer = .ok buffer' ∧
      (∀ i, buffer'[i]? = if first ≤ i ∧ i < first + count then none else buffer[i]?) ∧
      buffer'.size + count = buffer.size := by
  induction count generalizing first buffer with
  | zero =>
      refine ⟨buffer, rfl, fun i => ?_, rfl⟩
      rw [if_neg (by omega)]
  | succ count ih =>
      have hfirst : first ∈ buffer := hall first le_rfl (by omega)
      obtain ⟨buffer', hrun, hget, hsize⟩ := @ih (first + 1) (buffer.erase first) (by
        intro i hi hj
        exact (mem_erase _).mpr ⟨by omega, hall i (by omega) (by push_cast; omega)⟩)
      refine ⟨buffer', by rw [SenderState.eraseFrom, if_pos hfirst, hrun], fun i => ?_, ?_⟩
      · rw [hget, getElem?_erase]
        push_cast
        grind
      · rw [size_erase_of_mem _ hfirst] at hsize
        have hpos : buffer.size ≠ 0 := by
          intro hzero
          have hempty : buffer.isEmpty := by rw [Std.TreeMap.isEmpty_eq_size_eq_zero, hzero]; rfl
          have hnone := Std.TreeMap.isEmpty_iff_forall_not_mem.mp hempty first
          exact hnone hfirst
        omega

/-- The packets that are acknowledged are in the buffer, and only they leave it. -/
theorem SenderInv.freeBuffers (h : SenderInv p now s sent) {acked : Int} (hlt : s.lastAckSeqNo < acked)
    (hup : acked ≤ sent) :
    ∃ buffer, SenderState.freeBuffers s.lastAckSeqNo (acked - 1) s.packetBuffer = .ok buffer ∧
      (∀ i, acked ≤ i → PacketBuffer.info buffer i = PacketBuffer.info s.packetBuffer i) ∧
      (∀ i data, (PacketBuffer.info buffer i).packet = some data → data = ⟨i, p.packetSize⟩) ∧
      (∀ i, i ∈ buffer ↔ acked ≤ i ∧ i < sent) ∧ (buffer.size : Int) = sent - acked := by
  obtain ⟨buffer, hfree, hget, hsize⟩ := @eraseFrom_spec T (acked - 1 - s.lastAckSeqNo + 1).toNat
    s.lastAckSeqNo s.packetBuffer (fun i hi hj => (h.keys i).mpr ⟨hi, by omega⟩)
  refine ⟨buffer, by rw [SenderState.freeBuffers, if_pos (by omega), hfree], ?_, ?_, ?_, ?_⟩
  · intro i hi
    rw [PacketBuffer.info, hget, if_neg (by omega)]
    rfl
  · intro i data hdata
    rw [PacketBuffer.info, hget] at hdata
    split at hdata
    · simp at hdata
    · exact h.packets i data hdata
  · intro i
    rw [mem_iff, hget]
    split
    · simp only [reduceCtorEq, exists_false, false_iff]
      omega
    · rw [← mem_iff, h.keys]
      omega
  · have hcount := h.size
    change ((buffer : Std.TreeMap Int (PacketInfo T)).size : Int) = sent - acked
    omega

/-- The sender after an acknowledgement: the window begins at `acked`, and the expiration timer is no later than
the timeouts in it. -/
theorem SenderInv.acknowledged (h : SenderInv p now s sent) {acked next : Int} {expiration : T}
    {buffer : PacketBuffer T} {s' : SenderState T} (hlt : s.lastAckSeqNo < acked) (hup : acked ≤ sent)
    (hinfo : ∀ i, acked ≤ i → PacketBuffer.info buffer i = PacketBuffer.info s.packetBuffer i)
    (hpackets : ∀ i data, (PacketBuffer.info buffer i).packet = some data → data = ⟨i, p.packetSize⟩)
    (hkeys : ∀ i, i ∈ buffer ↔ acked ≤ i ∧ i < sent) (hsize : (buffer.size : Int) = sent - acked)
    (hnext : next = max acked s.nextSendSeqNo) (hexp : now ≤ expiration)
    (hfirst : ∀ i x, acked ≤ i → i < next → (PacketBuffer.info s.packetBuffer i).timeout = some x → expiration ≤ x)
    (hs' : s' = { s with
      packetBuffer := buffer
      ackBytes := s.ackBytes + p.packetSize.tdiv 8 * (acked - s.lastAckSeqNo)
      lastAckSeqNo := acked
      nextSendSeqNo := next
      nextSendTime := wokenTime now s
      nextSendTimer := some (wokenTime now s)
      timerExpiration := expiration
      expirationTimer := if expiration = ⊤ then none else some expiration }) :
    SenderInv p now s' sent := by
  obtain ⟨hwoken, hlater⟩ := h.wokenTime_spec
  have hsent := h.sent_le
  have hold := h.next_le
  subst hs'
  refine ⟨?_, ?_, ?_, hkeys, hsize, hpackets, ?_, rfl, ?_, ?_, h.now_lt, hlater, hexp, ?_, ?_, ?_⟩
  · dsimp only
    omega
  · dsimp only
    omega
  · dsimp only
    omega
  · simp [hwoken]
  · intro _
    dsimp only
    omega
  · intro htop
    exact absurd htop hwoken
  · intro i hi hj
    dsimp only at hi hj ⊢
    obtain ⟨x, hx, -, hupper⟩ := h.timeouts i (by omega) (by omega)
    rw [hinfo i hi]
    exact ⟨x, hx, hfirst i x hi hj hx, hupper⟩
  · intro i j x y hi hij hj hx hy
    dsimp only at hi hj hx hy
    rw [hinfo i hi] at hx
    rw [hinfo j (by omega)] at hy
    exact h.ordered i j x y (by omega) hij (by omega) hx hy
  · dsimp only
    rw [h.ackBytes, ← mul_add, add_sub_cancel]

/-- The acknowledgement comes at the very time at which the first packet that it leaves in the window expires. -/
def Expires (now : T) (s : SenderState T) (ack : ARQAck) (bitError : Bool) : Prop :=
  bitError = false ∧ s.lastAckSeqNo < ack.seqNoExpected ∧ ack.seqNoExpected < s.nextSendSeqNo ∧
    (PacketBuffer.info s.packetBuffer ack.seqNoExpected).timeout = some now

/-- An acknowledgement of packets that have been sent is taken without a failing assertion, unless the next packet
expires. -/
theorem SenderInv.handleAck (h : SenderInv p now s sent) {ack : ARQAck} (bitError : Bool)
    (hlow : s.lastAckSeqNo ≤ ack.seqNoExpected) (hup : ack.seqNoExpected ≤ sent) :
    (¬Expires now s ack bitError ∧ ∃ s', s.handleAck p now ack bitError = .ok s' ∧ SenderInv p now s' sent ∧
        s'.lastAckSeqNo = (if bitError then s.lastAckSeqNo else ack.seqNoExpected) ∧
        s'.sentBytes = s.sentBytes) ∨
      (Expires now s ack bitError ∧ s.handleAck p now ack bitError = .error .expired) := by
  cases bitError with
  | true => exact Or.inl ⟨by simp [Expires], s, rfl, h, rfl, rfl⟩
  | false =>
      by_cases heq : ack.seqNoExpected = s.lastAckSeqNo
      · -- a reject
        have hres : s.handleAck p now ack false = .ok { s with
            nextSendTime := wokenTime now s, nextSendTimer := some (wokenTime now s),
            nextSendSeqNo := s.lastAckSeqNo } := by
          rw [SenderState.handleAck, if_neg (by simp), if_pos heq, wake_eq h.sendTimer]
          rfl
        exact Or.inl ⟨by simp [Expires, heq], _, hres, h.goBack, heq.symm, rfl⟩
      · have hlt : s.lastAckSeqNo < ack.seqNoExpected := lt_of_le_of_ne hlow (Ne.symm heq)
        obtain ⟨buffer, hfree, hinfo, hpackets, hkeys, hsize⟩ := h.freeBuffers hlt hup
        have hrun : s.handleAck p now ack false =
            ({ s with
              packetBuffer := buffer
              ackBytes := s.ackBytes + p.packetSize.tdiv 8 * (ack.seqNoExpected - s.lastAckSeqNo)
              lastAckSeqNo := ack.seqNoExpected
              expirationTimer := none }.restartExpiration now).bind fun s => s.wake now := by
          rw [SenderState.handleAck, if_neg (by simp), if_neg heq, if_neg (not_not.mpr hlt), hfree]
          rfl
        rw [hrun, SenderState.restartExpiration]
        by_cases hmore : s.nextSendSeqNo > ack.seqNoExpected
        · obtain ⟨x, hx, hexp, hupper⟩ := h.timeouts ack.seqNoExpected hlow hmore
          have hexp' : now ≤ x := h.now_le_exp.trans hexp
          have hxfin : x ≠ ⊤ := (hupper.trans_lt (p.finite now h.now_lt).1).ne
          rw [if_pos hmore]
          dsimp only
          have hentry := hinfo _ le_rfl
          rw [hentry, hx]
          dsimp only
          by_cases hdue : now < x
          · left
            have hmem : ack.seqNoExpected ∈ buffer := (hkeys _).mpr ⟨le_rfl, hmore.trans_le h.next_le⟩
            have hsame : ∀ i, PacketBuffer.info
                (buffer.insert ack.seqNoExpected (PacketBuffer.info s.packetBuffer ack.seqNoExpected)) i =
                PacketBuffer.info buffer i := by
              intro i
              rw [info_insert]
              split
              · next hi => rw [← hi, hentry]
              · rfl
            rw [if_pos ⟨(Costs.zero_le now).trans_lt hdue, hdue⟩, scheduleAt_none hdue.le]
            dsimp only [Except.map, Except.bind]
            refine ⟨by simp [Expires, hx, hdue.ne'], _, wake_eq h.sendTimer, ?_, rfl, rfl⟩
            apply @SenderInv.acknowledged _ _ _ _ _ _ h _ s.nextSendSeqNo x
              (buffer.insert ack.seqNoExpected (PacketBuffer.info s.packetBuffer ack.seqNoExpected)) _ hlt hup
            · intro i hi
              rw [hsame, hinfo i hi]
            · intro i data hdata
              rw [hsame] at hdata
              exact hpackets i data hdata
            · intro i
              rw [mem_insert, hkeys]
              have hin := (hkeys _).mp hmem
              omega
            · rw [size_insert_of_mem _ hmem]
              exact hsize
            · omega
            · exact hexp'
            · intro i y hi hj hy
              exact h.ordered _ i x y hlow hi hj hx hy
            · rw [if_neg hxfin]
              rfl
          · right
            obtain rfl : x = now := le_antisymm (not_lt.mp hdue) hexp'
            rw [if_neg fun hand => hdue hand.2]
            exact ⟨⟨rfl, hlt, hmore, hx⟩, rfl⟩
        · left
          rw [if_neg hmore]
          dsimp only [Except.bind]
          refine ⟨fun hexp => hmore hexp.2.2.1, _, wake_eq h.sendTimer, ?_, rfl, rfl⟩
          have hnext : (if s.nextSendSeqNo < ack.seqNoExpected then ack.seqNoExpected else s.nextSendSeqNo) =
              max ack.seqNoExpected s.nextSendSeqNo := by
            split <;> omega
          apply @SenderInv.acknowledged _ _ _ _ _ _ h _ _ ⊤ buffer _ hlt hup hinfo hpackets hkeys hsize hnext
            le_top
          · intro i y hi hj
            omega
          · rw [if_pos rfl]
            rfl

/-! ### Runs -/

section Runs

variable {nack : Bool} {c c' : Connection T}

/-- The connection, when the packets before `sent` have been sent at least once. -/
structure Inv (p : SenderParams T) (c : Connection T) (sent : Int) : Prop where
  sender : SenderInv p c.now c.sender sent
  acked_le : c.sender.lastAckSeqNo ≤ c.receiver.lastReceivedSeqNo + 1
  received_lt : c.receiver.lastReceivedSeqNo < sent
  data : ∀ d ∈ c.data, d.seqNo < sent ∧ d.length = p.packetSize
  sorted : c.acks.Pairwise fun a b => a.seqNoExpected ≤ b.seqNoExpected
  acks : ∀ a ∈ c.acks, c.sender.lastAckSeqNo ≤ a.seqNoExpected ∧
    a.seqNoExpected ≤ c.receiver.lastReceivedSeqNo + 1
  goodBytes : c.receiver.goodBytes = p.packetSize.tdiv 8 * (c.receiver.lastReceivedSeqNo + 1)

theorem inv_start (hsize : 0 < p.packetSize) : Inv p (.start p) 0 where
  sender :=
    { acked_le := le_rfl
      next_le := le_rfl
      sent_le := by
        have := p.window_pos
        simp only [Connection.start]
        omega
      keys := by
        intro i
        simp only [Connection.start]
        constructor
        · intro h
          simp at h
        · intro h
          omega
      size := by simp [Connection.start]
      packets := by simp [Connection.start, PacketBuffer.info]
      sendTimer := by simp [Connection.start, SenderParams.disabled, hsize, Costs.zero_lt_top.ne]
      expTimer := by simp [Connection.start]
      room := by
        intro _
        have := p.window_pos
        simp only [Connection.start]
        omega
      exhausted := fun htop => absurd htop Costs.zero_lt_top.ne
      now_lt := Costs.zero_lt_top
      now_le_send := le_rfl
      now_le_exp := le_top
      timeouts := by
        intro i hi hj
        simp only [Connection.start] at hi hj
        omega
      ordered := by
        intro i j x y hi hij hj
        simp only [Connection.start] at hi hj
        omega
      ackBytes := by simp [Connection.start] }
  acked_le := le_rfl
  received_lt := by simp [Connection.start]
  data := by simp [Connection.start]
  sorted := .nil
  acks := by simp [Connection.start]
  goodBytes := by simp [Connection.start]

theorem Inv.advance (h : Inv p c sent) {t : T} (hdue : c.Due t) : SenderInv p t c.sender sent :=
  h.sender.advance hdue.1 hdue.2.1 hdue.2.2.1 hdue.2.2.2

/-- The receiver takes the next packet, and acknowledges it. -/
theorem receive_next (nack : Bool) {d : ARQData} {r : ReceiverState} (hnext : d.seqNo = r.lastReceivedSeqNo + 1) :
    r.handleMessage nack d false =
      ({ lastReceivedSeqNo := r.lastReceivedSeqNo + 1
         totalBytes := r.totalBytes + d.length.tdiv 8
         goodBytes := r.goodBytes + d.length.tdiv 8 }, [⟨r.lastReceivedSeqNo + 2⟩]) := by
  have htwo : r.lastReceivedSeqNo + 1 + 1 = r.lastReceivedSeqNo + 2 := by omega
  simp [ReceiverState.handleMessage, hnext, htwo]

/-- What the receiver does with a packet that has been sent: it takes the next one and acknowledges it, or takes
nothing and at most rejects. -/
theorem receive_cases (nack : Bool) (d : ARQData) (bitError : Bool) (r : ReceiverState) :
    (d.seqNo = r.lastReceivedSeqNo + 1 ∧ bitError = false ∧
        (r.handleMessage nack d bitError).1.lastReceivedSeqNo = r.lastReceivedSeqNo + 1 ∧
        (r.handleMessage nack d bitError).1.goodBytes = r.goodBytes + d.length.tdiv 8 ∧
        (r.handleMessage nack d bitError).2 = [⟨r.lastReceivedSeqNo + 2⟩]) ∨
      ((r.handleMessage nack d bitError).1.lastReceivedSeqNo = r.lastReceivedSeqNo ∧
        (r.handleMessage nack d bitError).1.goodBytes = r.goodBytes ∧
        ((r.handleMessage nack d bitError).2 = [] ∨
          d.seqNo > r.lastReceivedSeqNo + 1 ∧
            (r.handleMessage nack d bitError).2 = [⟨r.lastReceivedSeqNo + 1⟩])) := by
  by_cases herr : bitError = true
  · right
    simp [ReceiverState.handleMessage, herr]
  · by_cases hnext : d.seqNo = r.lastReceivedSeqNo + 1
    · left
      obtain rfl : bitError = false := Bool.not_eq_true _ ▸ herr
      simp [receive_next nack hnext, hnext]
    · right
      by_cases hnew : d.seqNo > r.lastReceivedSeqNo + 1
      · by_cases hnack : nack = true ∧ d.seqNo = r.lastReceivedSeqNo + 2
        · simp [ReceiverState.handleMessage, herr, hnack]
        · simp [ReceiverState.handleMessage, herr, hnext, hnew, hnack]
      · simp [ReceiverState.handleMessage, herr, hnext, hnew]

/-- A data packet comes to the receiver. -/
theorem Inv.receive (h : Inv p c sent) {t : T} {d : ARQData} {rest : List ARQData} (bitError : Bool) (hdue : c.Due t)
    (hdata : c.data = d :: rest) :
    Inv p { c with
      now := t
      receiver := (c.receiver.handleMessage nack d bitError).1
      data := rest
      acks := c.acks ++ (c.receiver.handleMessage nack d bitError).2 } sent := by
  have hacked := h.acked_le
  have hlt := h.received_lt
  obtain ⟨hd, hlen⟩ := h.data d (by simp [hdata])
  have hrest : ∀ d ∈ rest, d.seqNo < sent ∧ d.length = p.packetSize := by
    intro d hmem
    exact h.data d (by simp [hdata, hmem])
  rcases receive_cases nack d bitError c.receiver with ⟨hnext, -, hlast, hgood, hack⟩ | ⟨hlast, hgood, hack⟩
  · refine ⟨h.advance hdue, ?_, ?_, hrest, ?_, ?_, ?_⟩
    · simp only [hlast]
      omega
    · simp only [hlast]
      omega
    · simp only [hack]
      refine List.pairwise_append.mpr ⟨h.sorted, List.pairwise_singleton _ _, fun a ha b hb => ?_⟩
      obtain rfl := List.mem_singleton.mp hb
      have := (h.acks a ha).2
      dsimp only
      omega
    · intro a ha
      simp only [hack, List.mem_append, List.mem_singleton] at ha
      simp only [hlast]
      rcases ha with ha | rfl
      · have := h.acks a ha
        omega
      · dsimp only
        omega
    · simp only [hlast, hgood, h.goodBytes, hlen]
      exact (mul_add_one _ _).symm
  · refine ⟨h.advance hdue, ?_, ?_, hrest, ?_, ?_, ?_⟩
    · simpa only [hlast] using hacked
    · simpa only [hlast] using hlt
    · rcases hack with hack | ⟨-, hack⟩
      · simpa only [hack, List.append_nil] using h.sorted
      · simp only [hack]
        refine List.pairwise_append.mpr ⟨h.sorted, List.pairwise_singleton _ _, fun a ha b hb => ?_⟩
        obtain rfl := List.mem_singleton.mp hb
        exact (h.acks a ha).2
    · intro a ha
      simp only [hlast]
      rcases hack with hack | ⟨-, hack⟩
      · simp only [hack, List.append_nil] at ha
        exact h.acks a ha
      · simp only [hack, List.mem_append, List.mem_singleton] at ha
        rcases ha with ha | rfl
        · exact h.acks a ha
        · exact ⟨hacked, le_rfl⟩
    · simpa only [hlast, hgood] using h.goodBytes

/-- The packets before this one have been sent after an event. -/
def Event.sentAfter (sent : Int) : Event → Int
  | .timer0 d => max sent (d.seqNo + 1)
  | _ => sent

/-- Every step keeps the invariant; only sending a packet for the first time makes `sent` greater. -/
theorem Inv.step (h : Inv p c sent) {e : T × Event} (hstep : Step p nack c e c') :
    Inv p c' (e.2.sentAfter sent) := by
  have hlt := h.received_lt
  cases hstep with
  | @timer0 t data s hdue htimer hok =>
      obtain ⟨s', hok', hinv, hacked, -⟩ := (h.advance hdue).handleTimer0 htimer
      rw [hok'] at hok
      obtain ⟨rfl, rfl⟩ := Prod.mk.inj (Except.ok.inj hok)
      have hnext := h.sender.next_le
      refine ⟨hinv, ?_, ?_, ?_, h.sorted, ?_, h.goodBytes⟩
      · simpa only [hacked] using h.acked_le
      · simp only [Event.sentAfter]
        omega
      · intro d hd
        rcases List.mem_append.mp hd with hd | hd
        · obtain ⟨hseq, hlen⟩ := h.data d hd
          exact ⟨hseq.trans_le (le_max_left _ _), hlen⟩
        · obtain rfl := List.mem_singleton.mp hd
          exact ⟨by simp only [Event.sentAfter]; omega, rfl⟩
      · simpa only [hacked] using h.acks
  | @timer1 t s hdue htimer hok =>
      obtain ⟨s', hok', hinv, hacked, -⟩ := (h.advance hdue).handleTimer1 htimer
      rw [hok'] at hok
      obtain rfl := Except.ok.inj hok
      refine ⟨hinv, ?_, hlt, h.data, h.sorted, ?_, h.goodBytes⟩
      · simpa only [hacked] using h.acked_le
      · simpa only [hacked] using h.acks
  | data bitError hdue hdata => exact h.receive bitError hdue hdata
  | @dataLost t d rest hdue hdata =>
      refine ⟨h.advance hdue, h.acked_le, hlt, ?_, h.sorted, h.acks, h.goodBytes⟩
      intro d' hd'
      exact h.data d' (by simp [hdata, hd'])
  | @ack t a rest s bitError hdue hacks hok =>
      have hsorted := h.sorted
      rw [hacks] at hsorted
      obtain ⟨hhead, hrest⟩ := List.pairwise_cons.mp hsorted
      obtain ⟨hlow, hup⟩ := h.acks a (by simp [hacks])
      rcases (h.advance hdue).handleAck bitError hlow (by omega) with ⟨-, s', hok', hinv, hacked, -⟩ | ⟨-, hfail⟩
      · rw [hok'] at hok
        obtain rfl := Except.ok.inj hok
        refine ⟨hinv, ?_, hlt, h.data, hrest, ?_, h.goodBytes⟩
        · simp only [hacked]
          split
          · exact h.acked_le
          · exact hup
        · intro b hb
          obtain ⟨hlow', hup'⟩ := h.acks b (by simp [hacks, hb])
          simp only [hacked]
          split
          · exact ⟨hlow', hup'⟩
          · exact ⟨hhead b hb, hup'⟩
      · simp [hfail] at hok
  | @ackLost t a rest hdue hacks =>
      have hsorted := h.sorted
      rw [hacks] at hsorted
      refine ⟨h.advance hdue, h.acked_le, hlt, h.data, (List.pairwise_cons.mp hsorted).2, ?_, h.goodBytes⟩
      intro b hb
      exact h.acks b (by simp [hacks, hb])

/-! ### What has been sent -/

/-- The packet that an event sends. -/
def Event.sentSeqNo : Event → Option Int
  | .timer0 d => some d.seqNo
  | _ => none

/-- The packet that an event brings to the receiver, damaged or not. -/
def Event.arrivedSeqNo : Event → Option Int
  | .data d _ => some d.seqNo
  | _ => none

/-- The acknowledgement that an event brings to the sender undamaged. -/
def Event.ackedSeqNo : Event → Option Int
  | .ack a false => some a.seqNoExpected
  | _ => none

/-- The connection after the events `es`: what has been sent, what has arrived and what has been acknowledged. -/
structure History (p : SenderParams T) (es : List (T × Event)) (c : Connection T) (sent : Int) : Prop where
  inv : Inv p c sent
  sent_iff : ∀ i, i ∈ es.filterMap (fun e => e.2.sentSeqNo) ↔ 0 ≤ i ∧ i < sent
  sentBytes : c.sender.sentBytes = p.packetSize.tdiv 8 * (es.filterMap fun e => e.2.sentSeqNo).length
  totalBytes : c.receiver.totalBytes = p.packetSize.tdiv 8 * (es.filterMap fun e => e.2.arrivedSeqNo).length
  acked : c.sender.lastAckSeqNo = (es.filterMap fun e => e.2.ackedSeqNo).getLast?.getD 0
  acked_nonneg : 0 ≤ c.sender.lastAckSeqNo

theorem receive_totalBytes (nack : Bool) (d : ARQData) (bitError : Bool) (r : ReceiverState) :
    (r.handleMessage nack d bitError).1.totalBytes = r.totalBytes + d.length.tdiv 8 := by
  unfold ReceiverState.handleMessage
  dsimp only
  split
  · rfl
  · split
    · rfl
    · split <;> rfl

/-- An event by which nothing is sent, arrives or is acknowledged. -/
theorem History.silent {es : List (T × Event)} (h : History p es c sent) {e : T × Event} (hinv : Inv p c' sent)
    (hsent : e.2.sentSeqNo = none) (harrived : e.2.arrivedSeqNo = none) (hacked : e.2.ackedSeqNo = none)
    (hbytes : c'.sender.sentBytes = c.sender.sentBytes) (htotal : c'.receiver.totalBytes = c.receiver.totalBytes)
    (hlast : c'.sender.lastAckSeqNo = c.sender.lastAckSeqNo) : History p (es ++ [e]) c' sent where
  inv := hinv
  sent_iff := by simpa [hsent] using h.sent_iff
  sentBytes := by simpa [hsent, hbytes] using h.sentBytes
  totalBytes := by simpa [harrived, htotal] using h.totalBytes
  acked := by simpa [hacked, hlast] using h.acked
  acked_nonneg := hlast ▸ h.acked_nonneg

theorem History.step {es : List (T × Event)} (h : History p es c sent) {e : T × Event}
    (hstep : Step p nack c e c') : History p (es ++ [e]) c' (e.2.sentAfter sent) := by
  have hinv := h.inv.step hstep
  cases hstep with
  | @timer0 t data s hdue htimer hok =>
      have hsender := h.inv.advance hdue
      obtain ⟨s', hok', -, hacked, -, -, -, hbytes⟩ := hsender.handleTimer0 htimer
      rw [hok'] at hok
      obtain ⟨rfl, rfl⟩ := Prod.mk.inj (Except.ok.inj hok)
      have hlow := hsender.acked_le
      have hup := hsender.next_le
      refine ⟨hinv, fun i => ?_, ?_, ?_, ?_, ?_⟩
      · rw [List.filterMap_append, List.mem_append, h.sent_iff]
        simp only [List.filterMap_cons, Event.sentSeqNo, List.filterMap_nil, List.mem_singleton, Event.sentAfter]
        have hnonneg := h.acked_nonneg
        omega
      · simp only [hbytes, h.sentBytes, List.filterMap_append, List.filterMap_cons, Event.sentSeqNo,
          List.filterMap_nil, List.length_append, List.length_singleton]
        push_cast
        rw [mul_add, mul_one]
      · simpa [Event.arrivedSeqNo] using h.totalBytes
      · simpa [Event.ackedSeqNo, hacked] using h.acked
      · simpa only [hacked] using h.acked_nonneg
  | @timer1 t s hdue htimer hok =>
      obtain ⟨s', hok', -, hacked, hbytes⟩ := (h.inv.advance hdue).handleTimer1 htimer
      rw [hok'] at hok
      obtain rfl := Except.ok.inj hok
      exact h.silent hinv rfl rfl rfl hbytes rfl hacked
  | @data t d rest bitError hdue hdata =>
      obtain ⟨-, hlen⟩ := h.inv.data d (by simp [hdata])
      refine ⟨hinv, by simpa [Event.sentSeqNo, Event.sentAfter] using h.sent_iff, ?_, ?_, ?_, h.acked_nonneg⟩
      · simpa [Event.sentSeqNo] using h.sentBytes
      · simp only [receive_totalBytes, h.totalBytes, hlen, List.filterMap_append, List.filterMap_cons,
          Event.arrivedSeqNo, List.filterMap_nil, List.length_append, List.length_singleton]
        push_cast
        rw [mul_add, mul_one]
      · simpa [Event.ackedSeqNo] using h.acked
  | dataLost hdue hdata => exact h.silent hinv rfl rfl rfl rfl rfl rfl
  | @ack t a rest s bitError hdue hacks hok =>
      obtain ⟨hlow, hup⟩ := h.inv.acks a (by simp [hacks])
      have hlt := h.inv.received_lt
      rcases (h.inv.advance hdue).handleAck bitError hlow (by omega) with
        ⟨-, s', hok', -, hacked, hbytes⟩ | ⟨-, hfail⟩
      · rw [hok'] at hok
        obtain rfl := Except.ok.inj hok
        cases bitError with
        | true => exact h.silent hinv rfl rfl rfl hbytes rfl hacked
        | false =>
            refine ⟨hinv, by simpa [Event.sentSeqNo, Event.sentAfter] using h.sent_iff, ?_, ?_, ?_, ?_⟩
            · simpa [Event.sentSeqNo, hbytes] using h.sentBytes
            · simpa [Event.arrivedSeqNo] using h.totalBytes
            · simp [Event.ackedSeqNo, hacked]
            · exact hacked ▸ h.acked_nonneg.trans hlow
      · simp [hfail] at hok
  | ackLost hdue hacks => exact h.silent hinv rfl rfl rfl rfl rfl rfl

theorem history_start (hsize : 0 < p.packetSize) : History p [] (.start p) 0 where
  inv := inv_start hsize
  sent_iff := by
    intro i
    simp only [List.filterMap_nil, List.not_mem_nil, false_iff]
    omega
  sentBytes := by simp [Connection.start]
  totalBytes := by simp [Connection.start]
  acked := rfl
  acked_nonneg := le_rfl

/-- The history of every run of a sender that is not disabled. -/
theorem history_run (hsize : 0 < p.packetSize) {es : List (T × Event)} (hrun : Run (Step p nack) (.start p) es c) :
    ∃ sent, History p es c sent := by
  have hstep : ∀ (es : List (T × Event)) (c : Connection T) (e : T × Event) (c' : Connection T),
      (∃ sent, History p es c sent) → Step p nack c e c' → ∃ sent, History p (es ++ [e]) c' sent := by
    intro es c e c' ⟨sent, h⟩ hstep
    exact ⟨_, h.step hstep⟩
  exact hrun.history (fun es c => ∃ sent, History p es c sent) hstep ⟨0, history_start hsize⟩

/-- The invariant in every state that is reached from the start. -/
theorem inv_run (hsize : 0 < p.packetSize) {es : List (T × Event)} (hrun : Run (Step p nack) (.start p) es c) :
    ∃ sent, Inv p c sent := by
  obtain ⟨sent, h⟩ := history_run hsize hrun
  exact ⟨sent, h.inv⟩

/-- A connection whose sender is disabled never leaves its start. -/
theorem run_disabled (hsize : ¬0 < p.packetSize) {es : List (T × Event)}
    (hrun : Run (Step p nack) (.start p) es c) : es = [] ∧ c = .start p := by
  cases hrun with
  | nil s => exact ⟨rfl, rfl⟩
  | cons hstep _ =>
      have hdisabled : p.disabled = true := decide_eq_true (not_lt.mp hsize)
      cases hstep with
      | timer0 _ htimer _ => simp [Connection.start, hdisabled] at htimer
      | timer1 _ htimer _ => simp [Connection.start] at htimer
      | data _ _ hdata => simp [Connection.start] at hdata
      | dataLost _ hdata => simp [Connection.start] at hdata
      | ack _ _ hacks _ => simp [Connection.start] at hacks
      | ackLost _ hacks => simp [Connection.start] at hacks

theorem Inv.due_now (h : Inv p c sent) : c.Due c.now := by
  refine ⟨le_rfl, h.sender.now_lt, fun x hx => ?_, fun x hx => ?_⟩
  · obtain ⟨rfl, -⟩ := h.sender.sendTimer_some hx
    exact h.sender.now_le_send
  · obtain ⟨rfl, -⟩ := h.sender.expTimer_some hx
    exact h.sender.now_le_exp

/-- A window of four packets, sent in 3 units of time, and a timeout of 10. -/
def fourPackets : SenderParams (WithTop Nat) where
  packetSize := 8000
  timeout := 10
  interval := 1
  window := 4
  window_pos := by decide
  finite := by
    intro t ht
    obtain ⟨n, rfl⟩ := WithTop.ne_top_iff_exists.mp ht.ne
    exact ⟨WithTop.coe_lt_top (n + 10), WithTop.coe_lt_top (n + 1)⟩

end Runs

end ComputerNetworking.Arq
