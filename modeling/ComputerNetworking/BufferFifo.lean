import Mathlib.Tactic.Ring
import ComputerNetworking.RingLayout
import ComputerNetworking.BufferModel

/-! The packet buffer is a bounded queue of consecutively numbered packets.

`Rep buffer packets` relates the array with its indices to the queue it stands for. Each function of
the buffer gets one lemma that says what it does to the queue; later proofs use only these. -/

namespace ComputerNetworking.GoBackN

open RingLayout

/-- The buffer holds the packets, oldest first, numbered from `minSeqNo` on. -/
structure Rep (buffer : DataBuffer) (packets : List DataPacket) : Prop where
  capacity : buffer.data.length = buffer.maxCount
  sizeT : buffer.maxCount < 2 ^ 64
  firstLt : buffer.firstIndex < buffer.maxCount
  countEq : buffer.count = packets.length
  freeEq : buffer.freeIndex = (buffer.firstIndex + buffer.count) % buffer.maxCount
  layout : Holds buffer.data buffer.firstIndex (packets.map Slot.live)
  numbered : ∀ (j : Nat) (p : DataPacket), packets[j]? = some p →
    p.packet.seqNo = buffer.minSeqNo + j

theorem rep_allocate {n : Nat} (hpos : 0 < n) (hlt : n < 2 ^ 64) : Rep (allocateDataBuffer n) [] where
  capacity := List.length_replicate
  sizeT := hlt
  firstLt := hpos
  countEq := rfl
  freeEq := (Nat.zero_mod n).symm
  layout := Holds.nil _ _
  numbered := fun j p hp => by simp at hp

/-- Writing to a list what is there already changes nothing. -/
theorem set_of_getElem? {α : Type*} {l : List α} {i : Nat} {x : α} (h : l[i]? = some x) :
    l.set i x = l := by
  obtain ⟨hlt, rfl⟩ := List.getElem?_eq_some_iff.mp h
  exact List.set_getElem_self hlt

theorem slotIndex_add (buffer : DataBuffer) (j : Nat) :
    slotIndex buffer (buffer.minSeqNo + j) = (buffer.firstIndex + j) % buffer.maxCount := by
  have hcast : buffer.minSeqNo + (j : Int) - buffer.minSeqNo + buffer.firstIndex =
      ((buffer.firstIndex + j : Nat) : Int) := by push_cast; ring
  rw [slotIndex, hcast, ← Int.natCast_mod, Int.toNat_natCast]

namespace Rep

variable {buffer : DataBuffer} {packets : List DataPacket}

theorem length_le (h : Rep buffer packets) : packets.length ≤ buffer.maxCount := by
  have := h.layout.fits
  rwa [List.length_map, h.capacity] at this

/-- The slot of a packet of the queue. -/
theorem slot_eq (h : Rep buffer packets) {j : Nat} {p : DataPacket} (hp : packets[j]? = some p) :
    buffer.data.getD ((buffer.firstIndex + j) % buffer.maxCount) .null = .live p := by
  have hj : j < packets.length := (List.getElem?_eq_some_iff.mp hp).1
  have hitem := h.layout.item j (by rwa [List.length_map])
  rw [h.capacity, List.getElem?_map, hp] at hitem
  rw [List.getD_eq_getElem?_getD, hitem]
  rfl

/-- Looking up a number of the queue finds its packet. -/
theorem get_eq (h : Rep buffer packets) {j : Nat} {p : DataPacket} (hp : packets[j]? = some p) :
    getDataPacketFromBuffer buffer (buffer.minSeqNo + j) = .live p := by
  have hj : j < packets.length := (List.getElem?_eq_some_iff.mp hp).1
  have hcount := h.countEq
  rw [getDataPacketFromBuffer, if_neg (by omega), slotIndex_add, h.slot_eq hp]

theorem get_eq_null (h : Rep buffer packets) {seqNo : Int}
    (hout : seqNo < buffer.minSeqNo ∨ buffer.minSeqNo + packets.length ≤ seqNo) :
    getDataPacketFromBuffer buffer seqNo = .null := by
  have hcount := h.countEq
  rw [getDataPacketFromBuffer, if_pos (by omega)]

/-- What is looked up and found is the packet of that number. -/
theorem get_live (h : Rep buffer packets) {seqNo : Int} {p : DataPacket}
    (hget : getDataPacketFromBuffer buffer seqNo = .live p) :
    ∃ j : Nat, seqNo = buffer.minSeqNo + j ∧ packets[j]? = some p := by
  by_cases hout : seqNo < buffer.minSeqNo ∨ buffer.minSeqNo + packets.length ≤ seqNo
  · rw [h.get_eq_null hout] at hget
    cases hget
  · rw [not_or, not_lt, not_le] at hout
    obtain ⟨j, hj⟩ := Int.le.dest hout.1
    have hlt : j < packets.length := by omega
    have hp : packets[j]? = some packets[j] := List.getElem?_eq_getElem hlt
    rw [← hj, h.get_eq hp] at hget
    cases hget
    exact ⟨j, hj.symm, hp⟩

/-- A packet with the next number is appended when there is room. -/
theorem put_eq (h : Rep buffer packets) {p : DataPacket} (hroom : packets.length < buffer.maxCount)
    (hseq : p.packet.seqNo = buffer.minSeqNo + packets.length) :
    ∃ buffer', putDataPacketIntoBuffer buffer p = some buffer' ∧ Rep buffer' (packets ++ [p]) ∧
      buffer'.minSeqNo = buffer.minSeqNo ∧ buffer'.maxCount = buffer.maxCount := by
  have hcount := h.countEq
  have hfree : slotIndex buffer p.packet.seqNo = buffer.freeIndex := by
    rw [hseq, slotIndex_add, h.freeEq, hcount]
  rw [putDataPacketIntoBuffer, if_pos ⟨by omega, by omega, by omega, hfree⟩]
  refine ⟨_, rfl, ?_, rfl, rfl⟩
  have hlayout := h.layout.push (by rw [List.length_map, h.capacity]; exact hroom) (Slot.live p)
  rw [List.length_map, h.capacity, ← hcount, ← h.freeEq] at hlayout
  exact {
    capacity := by rw [List.length_set, h.capacity]
    sizeT := h.sizeT
    firstLt := h.firstLt
    countEq := by rw [List.length_append, List.length_singleton, hcount]
    freeEq := by
      change (buffer.freeIndex + 1) % buffer.maxCount = _
      rw [h.freeEq, index_add]
    layout := by rw [List.map_append]; exact hlayout
    numbered := fun j q hq => by
      rcases Nat.lt_trichotomy j packets.length with hlt | heq | hgt
      · exact h.numbered j q (by rwa [List.getElem?_append_left hlt] at hq)
      · subst heq
        rw [List.getElem?_concat_length] at hq
        cases hq
        exact hseq
      · rw [List.getElem?_eq_none (by rw [List.length_append, List.length_singleton]; omega)] at hq
        cases hq }

/-- A full buffer fails the first assertion of `putDataPacketIntoBuffer`. -/
theorem put_full (h : Rep buffer packets) (hfull : packets.length = buffer.maxCount)
    (p : DataPacket) : putDataPacketIntoBuffer buffer p = none := by
  have hcount := h.countEq
  rw [putDataPacketIntoBuffer, if_neg (by omega)]

theorem freeFirst_eq {p : DataPacket} (h : Rep buffer (p :: packets)) :
    ∃ buffer', freeFirst buffer = some buffer' ∧ Rep buffer' packets ∧
      buffer'.minSeqNo = buffer.minSeqNo + 1 ∧ buffer'.maxCount = buffer.maxCount := by
  have hcount := h.countEq
  have hlen := h.length_le
  have hfirst := h.firstLt
  have hsize := h.sizeT
  rw [List.length_cons] at hcount hlen
  have hslot := h.slot_eq (j := 0) rfl
  rw [Nat.add_zero, Nat.mod_eq_of_lt hfirst] at hslot
  rw [freeFirst, hslot]
  refine ⟨_, rfl, ?_, rfl, rfl⟩
  have hlayout := (h.layout).pop (y := Slot.dangling)
  rw [h.capacity, Nat.mod_eq_of_lt hfirst] at hlayout
  have hdec : decrementSize buffer.count = packets.length := by
    unfold decrementSize
    omega
  exact {
    capacity := by rw [List.length_set, h.capacity]
    sizeT := hsize
    firstLt := Nat.mod_lt _ (by omega)
    countEq := hdec
    freeEq := by
      change buffer.freeIndex = ((buffer.firstIndex + 1) % buffer.maxCount + _) % buffer.maxCount
      rw [index_add, hdec, h.freeEq, hcount, Nat.add_comm 1]
    layout := hlayout
    numbered := fun j q hq => by
      have := h.numbered (j + 1) q (by rwa [List.getElem?_cons_succ])
      change _ = buffer.minSeqNo + 1 + (j : Int)
      omega }

theorem freeLoop_eq (h : Rep buffer packets) {rounds : Nat} (hle : rounds ≤ packets.length) :
    ∃ buffer', freeLoop rounds buffer.minSeqNo buffer = some buffer' ∧
      Rep buffer' (packets.drop rounds) ∧
      buffer'.minSeqNo = buffer.minSeqNo + rounds ∧ buffer'.maxCount = buffer.maxCount := by
  induction rounds generalizing buffer packets with
  | zero => exact ⟨buffer, rfl, h, by simp, rfl⟩
  | succ rounds ih =>
      cases packets with
      | nil => simp at hle
      | cons p packets =>
          obtain ⟨middle, hfirst, hrep, hmin, hmax⟩ := h.freeFirst_eq
          obtain ⟨last, hloop, hrep', hmin', hmax'⟩ := ih hrep (by simpa using hle)
          refine ⟨last, ?_, hrep', by rw [hmin', hmin]; push_cast; ring, hmax'.trans hmax⟩
          rw [freeLoop, if_pos rfl, hfirst, Option.bind_some, ← hmin, hloop]

/-- Freeing the oldest `k` packets, at least one, leaves the others. -/
theorem free_eq (h : Rep buffer packets) {k : Nat} (hpos : 0 < k) (hle : k ≤ packets.length) :
    ∃ buffer', freeBuffer buffer buffer.minSeqNo (buffer.minSeqNo + k - 1) = some buffer' ∧
      Rep buffer' (packets.drop k) ∧
      buffer'.minSeqNo = buffer.minSeqNo + k ∧ buffer'.maxCount = buffer.maxCount := by
  have hcount := h.countEq
  obtain ⟨last, hloop, hrest⟩ := h.freeLoop_eq hle
  refine ⟨last, ?_, hrest⟩
  have hrounds : (buffer.minSeqNo + k - 1 - buffer.minSeqNo + 1).toNat = k := by omega
  rw [freeBuffer, if_pos ⟨by omega, rfl, by omega⟩, hrounds, hloop]

/-- The packets that are left are found as before. -/
theorem get_drop (h : Rep buffer packets) {buffer' : DataBuffer} {k : Nat}
    (h' : Rep buffer' (packets.drop k)) (hmin : buffer'.minSeqNo = buffer.minSeqNo + k) {seqNo : Int}
    (hle : buffer'.minSeqNo ≤ seqNo) :
    getDataPacketFromBuffer buffer' seqNo = getDataPacketFromBuffer buffer seqNo := by
  obtain ⟨j, rfl⟩ := Int.le.dest hle
  have hnumber : buffer'.minSeqNo + j = buffer.minSeqNo + (k + j : Nat) := by
    push_cast
    omega
  by_cases hj : k + j < packets.length
  · have hp : packets[k + j]? = some packets[k + j] := List.getElem?_eq_getElem hj
    have hp' : (packets.drop k)[j]? = some packets[k + j] := by rw [List.getElem?_drop, hp]
    rw [h'.get_eq hp', hnumber, h.get_eq hp]
  · have hlen : (packets.drop k).length = packets.length - k := List.length_drop
    rw [h'.get_eq_null (by omega), h.get_eq_null (by omega)]

/-- Storing a time through the pointer to a packet of the queue keeps the packets. -/
theorem setTimeout_eq (h : Rep buffer packets) {j : Nat} (hj : j < packets.length)
    (time : Timeval) :
    ∃ buffer' p, packets[j]? = some p ∧
      setTimeout buffer ((buffer.firstIndex + j) % buffer.maxCount) time = some buffer' ∧
      Rep buffer' (packets.set j { p with timeout := time }) ∧
      buffer'.minSeqNo = buffer.minSeqNo ∧ buffer'.maxCount = buffer.maxCount ∧
      buffer'.firstIndex = buffer.firstIndex ∧ buffer'.count = buffer.count := by
  have hp : packets[j]? = some packets[j] := List.getElem?_eq_getElem hj
  have hcount := h.countEq
  let slot := Slot.live { packets[j] with timeout := time }
  let data := buffer.data.set ((buffer.firstIndex + j) % buffer.maxCount) slot
  have hset : setTimeout buffer ((buffer.firstIndex + j) % buffer.maxCount) time =
      some { buffer with data := data } := by rw [setTimeout, h.slot_eq hp]
  refine ⟨_, packets[j], hp, hset, ?_, rfl, rfl, rfl, rfl⟩
  have hlayout := h.layout.set (j := j) (by rwa [List.length_map]) slot
  rw [h.capacity] at hlayout
  exact {
    capacity := by rw [List.length_set, h.capacity]
    sizeT := h.sizeT
    firstLt := h.firstLt
    countEq := by rw [List.length_set, hcount]
    freeEq := h.freeEq
    layout := by rw [List.map_set]; exact hlayout
    numbered := fun i q hq => by
      by_cases heq : j = i
      · subst heq
        rw [List.getElem?_set_self hj] at hq
        cases hq
        exact h.numbered j packets[j] hp
      · exact h.numbered i q (by rwa [List.getElem?_set_ne heq] at hq) }

/-- The loop over the buffer only visits slots of packets in the queue. -/
theorem visitedFrom_mem (h : Rep buffer packets) (rounds j : Nat) (hj : j ≤ packets.length) {i : Nat}
    (hi : i ∈ visitedFrom buffer rounds ((buffer.firstIndex + j) % buffer.maxCount)) :
    ∃ j', j' < packets.length ∧ i = (buffer.firstIndex + j') % buffer.maxCount := by
  induction rounds generalizing j with
  | zero => simp [visitedFrom] at hi
  | succ rounds ih =>
      unfold visitedFrom at hi
      split at hi
      · rename_i hne
        have hlt : j < packets.length := by
          rcases Nat.lt_or_eq_of_le hj with hlt | heq
          · exact hlt
          · rw [heq, ← h.countEq, ← h.freeEq] at hne
            exact absurd rfl hne
        rcases List.mem_cons.mp hi with rfl | htail
        · exact ⟨j, hlt, rfl⟩
        · rw [index_add] at htail
          exact ih (j + 1) hlt htail
      · simp at hi

/-- Setting the times of packets of the queue, in any order, succeeds and keeps the packets. -/
theorem foldlM_setTimeout (h : Rep buffer packets) (time : Timeval) (indices : List Nat)
    (hmem : ∀ i ∈ indices, ∃ j, j < packets.length ∧ i = (buffer.firstIndex + j) % buffer.maxCount) :
    ∃ buffer' packets',
      indices.foldlM (fun buffer i => setTimeout buffer i time) buffer = some buffer' ∧
      Rep buffer' packets' ∧ packets'.map (·.packet) = packets.map (·.packet) ∧
      buffer'.minSeqNo = buffer.minSeqNo := by
  induction indices generalizing buffer packets with
  | nil => exact ⟨buffer, packets, rfl, h, rfl, rfl⟩
  | cons i indices ih =>
      obtain ⟨j, hj, rfl⟩ := hmem i (by simp)
      obtain ⟨middle, p, hp, hset, hrep, hmin, hmax, hfirst, -⟩ := h.setTimeout_eq hj time
      have hsame : (packets.set j { p with timeout := time }).map (·.packet) =
          packets.map (·.packet) := by
        rw [List.map_set]
        exact set_of_getElem? (by rw [List.getElem?_map, hp, Option.map_some])
      obtain ⟨last, packets', hfold, hrep', hpackets, hmin'⟩ := ih hrep fun i' hi' => by
        rw [List.length_set, hfirst, hmax]
        exact hmem i' (List.mem_cons_of_mem _ hi')
      refine ⟨last, packets', ?_, hrep', hpackets.trans hsame, hmin'.trans hmin⟩
      rw [List.foldlM_cons, hset]
      exact hfold

/-- `resetTimers` changes times only. -/
theorem resetTimers_eq (h : Rep buffer packets) :
    ∃ buffer' packets', resetTimers buffer = some buffer' ∧ Rep buffer' packets' ∧
      packets'.map (·.packet) = packets.map (·.packet) ∧ buffer'.minSeqNo = buffer.minSeqNo := by
  refine h.foldlM_setTimeout .never (visited buffer) fun i hi => ?_
  apply h.visitedFrom_mem buffer.maxCount 0 (Nat.zero_le _)
  rwa [Nat.add_zero, Nat.mod_eq_of_lt h.firstLt]

end Rep

end ComputerNetworking.GoBackN
