import ComputerNetworking.BufferRuns

/-! The assertions of `freeBuffer`.

The difference of the two numbers is compared with the number of packets, although the loop takes one round
more than this difference. A free that ends behind the last packet passes the assertion, and its last
round frees a slot without a packet and counts below zero. -/

namespace ComputerNetworking.GoBackN

open RingLayout

/-- The invariant of the ring: the slots from `firstIndex` on hold packets, as many as `count`, and the
slot behind them is `freeIndex`. -/
structure RingBuffer (buffer : DataBuffer) : Prop where
  capacity : buffer.data.length = buffer.maxCount
  sizeT : buffer.maxCount < 2 ^ 64
  firstLt : buffer.firstIndex < buffer.maxCount
  countLe : buffer.count ≤ buffer.maxCount
  freeEq : buffer.freeIndex = (buffer.firstIndex + buffer.count) % buffer.maxCount
  occupied : ∀ j < buffer.count,
    ∃ p, buffer.data[(buffer.firstIndex + j) % buffer.maxCount]? = some (.live p)

/-- The slots that the loop of `freeBuffer` frees. -/
def freedSlots : Nat → DataBuffer → List Nat
  | 0, _ => []
  | rounds + 1, buffer =>
      buffer.firstIndex ::
        match freeFirst buffer with
        | some next => freedSlots rounds next
        | none => []

/-- The number of rounds of the loop of `freeBuffer`. -/
def freeRounds (start stop : Int) : Nat := (stop - start + 1).toNat

/-- `deallocateDataBuffer`: the buffer as it is before the array is freed. -/
def deallocateDataBuffer (buffer : DataBuffer) : Option DataBuffer :=
  if buffer.count > 0 then freeBuffer buffer buffer.minSeqNo (buffer.minSeqNo + buffer.count - 1)
  else some buffer

/-- What is expected of `freeBuffer` behind its assertions: the packets are in the buffer, the loop frees
slots of packets only, each once, and leaves a ring with as many packets less. The numbers that it counts
up, `i` and `minSeqNo`, stay in `long`. -/
structure FreesPackets (buffer : DataBuffer) (start stop : Int) : Prop where
  counts : ∀ seqNo, start ≤ seqNo → seqNo ≤ stop → seqNo + 1 ≤ longMax
  contained : ∀ seqNo, start ≤ seqNo → seqNo ≤ stop → bufferContainsPacket buffer seqNo = true
  frees : ∀ i ∈ freedSlots (freeRounds start stop) buffer, i ∈ packetSlots buffer
  once : (freedSlots (freeRounds start stop) buffer).Nodup
  leaves : ∃ next, freeBuffer buffer start stop = some next ∧ RingBuffer next ∧
    (getBufferSize next : Int) = getBufferSize buffer - (stop - start + 1)

theorem Rep.ringBuffer {buffer : DataBuffer} {packets : List DataPacket} (h : Rep buffer packets) :
    RingBuffer buffer where
  capacity := h.capacity
  sizeT := h.sizeT
  firstLt := h.firstLt
  countLe := h.countEq ▸ h.length_le
  freeEq := h.freeEq
  occupied j hj := by
    rw [h.countEq] at hj
    have hitem := h.layout.item j (by rwa [List.length_map])
    rw [h.capacity, List.getElem?_map, List.getElem?_eq_getElem hj] at hitem
    exact ⟨packets[j], hitem⟩

/-- The loop in two parts. -/
theorem freeLoop_add (m n : Nat) (i : Int) (buffer : DataBuffer) :
    freeLoop (m + n) i buffer = (freeLoop m i buffer).bind (freeLoop n (i + m)) := by
  induction m generalizing i buffer with
  | zero => simp [freeLoop]
  | succ m ih =>
      have hrounds : m + 1 + n = m + n + 1 := by omega
      rw [hrounds, freeLoop, freeLoop]
      split
      · rw [Option.bind_assoc]
        congr 1
        funext next
        rw [ih]
        push_cast
        ring_nf
      · rfl

namespace RingBuffer

variable {buffer : DataBuffer}

theorem packetSlots_nodup (h : RingBuffer buffer) : (packetSlots buffer).Nodup := by
  rw [packetSlots_eq_range]
  exact indices_nodup h.countLe buffer.firstIndex

theorem packetSlots_cons {next : DataBuffer} (hfirst : buffer.firstIndex < buffer.maxCount)
    (hcount : next.count + 1 = buffer.count) (hmax : next.maxCount = buffer.maxCount)
    (hindex : next.firstIndex = (buffer.firstIndex + 1) % buffer.maxCount) :
    packetSlots buffer = buffer.firstIndex :: packetSlots next := by
  rw [packetSlots_eq_range, packetSlots_eq_range, ← hcount, List.range_succ_eq_map, List.map_cons, List.map_map,
    Nat.add_zero, Nat.mod_eq_of_lt hfirst]
  refine congrArg _ (List.map_congr_left fun j _ => ?_)
  rw [Function.comp_apply, hmax, hindex, index_add, Nat.succ_eq_add_one, Nat.add_comm 1]

/-- One round of the loop takes the oldest packet away. -/
theorem freeFirst_eq (h : RingBuffer buffer) (hpos : 0 < buffer.count) :
    ∃ next, freeFirst buffer = some next ∧ RingBuffer next ∧ next.count + 1 = buffer.count ∧
      next.minSeqNo = buffer.minSeqNo + 1 ∧
      packetSlots buffer = buffer.firstIndex :: packetSlots next := by
  have hfirst := h.firstLt
  have hle := h.countLe
  have hsize := h.sizeT
  obtain ⟨p, hp⟩ := h.occupied 0 hpos
  rw [Nat.add_zero, Nat.mod_eq_of_lt hfirst] at hp
  have hdec : decrementSize buffer.count + 1 = buffer.count := by
    unfold decrementSize
    omega
  rw [freeFirst, List.getD_eq_getElem?_getD, hp]
  refine ⟨_, rfl, ?_, hdec, rfl, ?_⟩
  · exact {
      capacity := by rw [List.length_set, h.capacity]
      sizeT := hsize
      firstLt := Nat.mod_lt _ (by omega)
      countLe := by
        change decrementSize buffer.count ≤ buffer.maxCount
        omega
      freeEq := by
        change buffer.freeIndex = ((buffer.firstIndex + 1) % buffer.maxCount + _) % buffer.maxCount
        rw [index_add, h.freeEq, Nat.add_comm 1, hdec]
      occupied := fun j hj => by
        change j < decrementSize buffer.count at hj
        obtain ⟨q, hq⟩ := h.occupied (1 + j) (by omega)
        refine ⟨q, ?_⟩
        -- the slot that has been freed is none of the later ones
        have hne : buffer.firstIndex ≠ (buffer.firstIndex + (1 + j)) % buffer.maxCount := by
          intro hcell
          have hzero : (buffer.firstIndex + 0) % buffer.maxCount =
              (buffer.firstIndex + (1 + j)) % buffer.maxCount := by
            rwa [Nat.add_zero, Nat.mod_eq_of_lt hfirst]
          have := index_inj (by omega) (by omega) hzero
          omega
        change (buffer.data.set _ _)[((buffer.firstIndex + 1) % buffer.maxCount + j) % buffer.maxCount]? = _
        rw [index_add, List.getElem?_set_ne hne, hq] }
  · exact packetSlots_cons hfirst hdec rfl rfl

/-- As many rounds as there are packets, or fewer, free the slots of the oldest packets. -/
theorem freeLoop_eq (h : RingBuffer buffer) {rounds : Nat} (hle : rounds ≤ buffer.count) :
    ∃ next, freeLoop rounds buffer.minSeqNo buffer = some next ∧ RingBuffer next ∧
      next.count + rounds = buffer.count ∧ next.minSeqNo = buffer.minSeqNo + rounds ∧
      packetSlots buffer = freedSlots rounds buffer ++ packetSlots next := by
  induction rounds generalizing buffer with
  | zero => exact ⟨buffer, rfl, h, rfl, by simp, rfl⟩
  | succ rounds ih =>
      obtain ⟨middle, hfirst, hring, hcount, hmin, hslots⟩ := h.freeFirst_eq (by omega)
      obtain ⟨next, hloop, hring', hcount', hmin', hslots'⟩ := ih hring (by omega)
      refine ⟨next, ?_, hring', by omega, by rw [hmin', hmin]; push_cast; ring, ?_⟩
      · rw [freeLoop, if_pos rfl, hfirst, Option.bind_some, ← hmin, hloop]
      · rw [hslots, hslots', freedSlots, hfirst]
        rfl

theorem frees_of_lt (h : RingBuffer buffer) {start stop : Int} (hasserts : FreeAsserts buffer start stop)
    (hlt : stop - start < buffer.count) (hlong : stop < longMax) : FreesPackets buffer start stop := by
  obtain ⟨hle, rfl, -⟩ := hasserts
  have hrounds : freeRounds buffer.minSeqNo stop ≤ buffer.count := by
    unfold freeRounds
    omega
  obtain ⟨next, hloop, hring, hcount, -, hslots⟩ := h.freeLoop_eq hrounds
  have hnodup := h.packetSlots_nodup
  rw [hslots] at hnodup
  refine ⟨fun seqNo _ hlast => by omega, fun seqNo hfirst hlast => ?_,
    fun i hi => hslots ▸ List.mem_append_left _ hi, hnodup.of_append_left, next, ?_, hring, ?_⟩
  · rw [bufferContainsPacket, decide_eq_true_iff]
    omega
  · rw [freeBuffer, if_pos ⟨hle, rfl, hlt.le⟩]
    exact hloop
  · unfold freeRounds at hcount
    unfold getBufferSize
    omega

/-- A free that goes one number too far and returns has counted below zero. -/
theorem count_of_overrun (h : RingBuffer buffer) {next : DataBuffer}
    (hfree : freeBuffer buffer buffer.minSeqNo (buffer.minSeqNo + buffer.count) = some next) :
    next.count = 2 ^ 64 - 1 := by
  obtain ⟨last, hloop, -, hcount, hmin, -⟩ := h.freeLoop_eq le_rfl
  have hrounds : (buffer.minSeqNo + buffer.count - buffer.minSeqNo + 1).toNat = buffer.count + 1 := by
    omega
  rw [freeBuffer, if_pos ⟨by omega, rfl, by omega⟩, hrounds, freeLoop_add, hloop, Option.bind_some,
    freeLoop, if_pos hmin.symm, Option.bind_eq_some_iff] at hfree
  obtain ⟨middle, hfirst, hrest⟩ := hfree
  rw [freeFirst, Option.map_eq_some_iff] at hfirst
  obtain ⟨slot, -, rfl⟩ := hfirst
  cases hrest
  have hzero : last.count = 0 := by omega
  change decrementSize last.count = _
  rw [hzero]
  rfl

/-- `deallocateDataBuffer` passes all assertions and frees every packet. -/
theorem deallocate_eq (h : RingBuffer buffer) : ∃ next, deallocateDataBuffer buffer = some next ∧
    RingBuffer next ∧ next.count = 0 ∧ freedSlots buffer.count buffer = packetSlots buffer := by
  obtain ⟨next, hloop, hring, hcount, -, hslots⟩ := h.freeLoop_eq le_rfl
  have hzero : next.count = 0 := by omega
  have hempty : packetSlots next = [] := by
    rw [packetSlots, hzero]
    rfl
  rw [hempty, List.append_nil] at hslots
  refine ⟨next, ?_, hring, hzero, hslots.symm⟩
  unfold deallocateDataBuffer
  split
  · have hrounds : (buffer.minSeqNo + buffer.count - 1 - buffer.minSeqNo + 1).toNat = buffer.count := by
      omega
    rw [freeBuffer, if_pos ⟨by omega, rfl, by omega⟩, hrounds, hloop]
  · have hnone : buffer.count = 0 := by omega
    rw [hnone] at hloop
    exact hloop

end RingBuffer

/-- **The assertions of `freeBuffer`.** In every state of the ring, a call that passes the assertions frees
the packets from `start` to `stop` and nothing else exactly if `stop` is below the number behind the last
packet and below `LONG_MAX`. If `stop` is the number behind the last packet, then no packet has it, and if
the call returns, `count` has wrapped. -/
theorem free_asserts_iff (buffer : DataBuffer) (hring : RingBuffer buffer) (start stop : Int)
    (hasserts : FreeAsserts buffer start stop) :
    (FreesPackets buffer start stop ↔ stop - start < buffer.count ∧ stop < longMax) ∧
      (¬stop - start < buffer.count → bufferContainsPacket buffer stop = false ∧
        ∀ next, freeBuffer buffer start stop = some next → getBufferSize next = 2 ^ 64 - 1) := by
  have hrange := hasserts
  obtain ⟨hle, rfl, hguard⟩ := hrange
  refine ⟨⟨fun hfrees => ⟨?_, ?_⟩, fun ⟨hlt, hlong⟩ => hring.frees_of_lt hasserts hlt hlong⟩,
    fun hover => ⟨?_, fun next hfree => ?_⟩⟩
  · have hlast := hfrees.contained stop hle le_rfl
    rw [bufferContainsPacket, decide_eq_true_iff] at hlast
    exact hlast.2
  · exact Int.lt_iff_add_one_le.mpr (hfrees.counts stop hle le_rfl)
  · rw [bufferContainsPacket, decide_eq_false_iff_not]
    omega
  · obtain rfl : stop = buffer.minSeqNo + buffer.count := by omega
    exact hring.count_of_overrun hfree

theorem wrapping_ringBuffer : RingBuffer (wrappingBuffer 5) :=
  (rep_packetsAfter (by decide) (by decide) wrapping_run).1.ringBuffer

theorem free_asserts_iff_wrapping : FreesPackets (wrappingBuffer 5) 2 3 :=
  (free_asserts_iff (wrappingBuffer 5) wrapping_ringBuffer 2 3 (by decide)).1.mpr (by decide)

theorem allocate_ringBuffer : RingBuffer (allocateDataBuffer 1) :=
  (rep_allocate (by decide) (by decide)).ringBuffer

/-- An empty buffer lets packet 0 be freed: the assertions hold, the packet is not there, and the buffer
has 2⁶⁴ - 1 packets afterwards. -/
theorem empty_buffer_is_freed :
    RingBuffer (allocateDataBuffer 1) ∧ FreeAsserts (allocateDataBuffer 1) 0 0 ∧
    bufferContainsPacket (allocateDataBuffer 1) 0 = false ∧
    (freeBuffer (allocateDataBuffer 1) 0 0).map getBufferSize = some 18446744073709551615 ∧
    ¬FreesPackets (allocateDataBuffer 1) 0 0 := by
  refine ⟨allocate_ringBuffer, by decide, by decide, by decide, fun h => ?_⟩
  have hcontained := h.contained 0 le_rfl le_rfl
  revert hcontained
  decide

end ComputerNetworking.GoBackN
