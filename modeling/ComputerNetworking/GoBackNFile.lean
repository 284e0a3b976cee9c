import ComputerNetworking.BufferFifo
import ComputerNetworking.GoBackNModel

/-! The packets that a file is split into, and that `readFileIntoBuffer` fills the buffer with
them. -/

namespace ComputerNetworking.GoBackN

variable (cfg : SenderConfig) (heap : Int → FreshPacket)

/-- The packets of a file from the number `seqNo` on: its payloads, then the empty packet. -/
def packetsFrom (file : Bytes) (seqNo : Int) : List DataPacket :=
  if h : file = [] then [dataPacket cfg heap seqNo []]
  else dataPacket cfg heap seqNo (file.take defaultPayloadSize) ::
    packetsFrom (file.drop defaultPayloadSize) (seqNo + 1)
termination_by file.length
decreasing_by
  have hpos := List.length_pos_iff.mpr h
  rw [List.length_drop, defaultPayloadSize]
  omega

/-- The packets of a whole file. -/
def filePackets (file : Bytes) : List GoBackNMessageStruct :=
  (packetsFrom cfg heap file 0).map (·.packet)

@[simp] theorem packetsFrom_nil (seqNo : Int) :
    packetsFrom cfg heap [] seqNo = [dataPacket cfg heap seqNo []] := by
  rw [packetsFrom, dif_pos rfl]

theorem packetsFrom_of_ne_nil {file : Bytes} (h : file ≠ []) (seqNo : Int) :
    packetsFrom cfg heap file seqNo = dataPacket cfg heap seqNo (file.take defaultPayloadSize) ::
      packetsFrom cfg heap (file.drop defaultPayloadSize) (seqNo + 1) := by
  rw [packetsFrom, dif_neg h]

theorem take_ne_nil {file : Bytes} (h : file ≠ []) : file.take defaultPayloadSize ≠ [] := by
  have hpos := List.length_pos_iff.mpr h
  rw [← List.length_pos_iff, List.length_take, defaultPayloadSize]
  omega

/-- Cutting payloads off a file ends, so a property of the empty rest carries back. -/
theorem file_induction {prop : Bytes → Int → Prop} (hnil : ∀ seqNo, prop [] seqNo)
    (hcut : ∀ file seqNo, file ≠ [] → prop (file.drop defaultPayloadSize) (seqNo + 1) →
      prop file seqNo) (file : Bytes) (seqNo : Int) : prop file seqNo := by
  induction hm : file.length using Nat.strongRecOn generalizing file seqNo with
  | ind n ih =>
      by_cases h : file = []
      · subst h
        exact hnil seqNo
      · refine hcut file seqNo h (ih _ ?_ _ _ rfl)
        have hpos := List.length_pos_iff.mpr h
        rw [List.length_drop, defaultPayloadSize]
        omega

theorem packetsFrom_length_pos (file : Bytes) (seqNo : Int) :
    0 < (packetsFrom cfg heap file seqNo).length := by
  by_cases h : file = []
  · subst h
    simp
  · simp [packetsFrom_of_ne_nil cfg heap h]

theorem packetsFrom_numbered (file : Bytes) (seqNo : Int) (j : Nat) (p : DataPacket)
    (hp : (packetsFrom cfg heap file seqNo)[j]? = some p) : p.packet.seqNo = seqNo + j := by
  induction file, seqNo using file_induction generalizing j with
  | hnil seqNo =>
      rw [packetsFrom_nil, List.getElem?_singleton] at hp
      split at hp
      · cases hp
        subst j
        simp [dataPacket]
      · cases hp
  | hcut file seqNo h ih =>
      rw [packetsFrom_of_ne_nil cfg heap h] at hp
      cases j with
      | zero =>
          cases hp
          simp [dataPacket]
      | succ j =>
          rw [ih j hp]
          push_cast
          omega

/-- Every packet is well formed and undamaged, and its payload fits. -/
theorem packetsFrom_wellFormed (file : Bytes) (seqNo : Int) (p : DataPacket)
    (hp : p ∈ packetsFrom cfg heap file seqNo) :
    p.packet.size = p.packet.data.length + headerSize ∧ p.packet.hasErrors = false ∧
      p.packet.data.length ≤ defaultPayloadSize := by
  induction file, seqNo using file_induction with
  | hnil seqNo =>
      rw [packetsFrom_nil, List.mem_singleton] at hp
      subst hp
      simp [dataPacket]
  | hcut file seqNo h ih =>
      rw [packetsFrom_of_ne_nil cfg heap h, List.mem_cons] at hp
      rcases hp with rfl | hp
      · exact ⟨rfl, rfl, List.length_take_le _ _⟩
      · exact ih hp

/-- The payloads in order are the content of the file. -/
theorem packetsFrom_content (file : Bytes) (seqNo : Int) :
    (packetsFrom cfg heap file seqNo).flatMap (·.packet.data) = file := by
  induction file, seqNo using file_induction with
  | hnil seqNo => simp [dataPacket]
  | hcut file seqNo h ih =>
      rw [packetsFrom_of_ne_nil cfg heap h, List.flatMap_cons, ih]
      exact List.take_append_drop _ _

/-- The last packet and no other is empty. -/
theorem packetsFrom_empty_iff (file : Bytes) (seqNo : Int) (j : Nat) (p : DataPacket)
    (hp : (packetsFrom cfg heap file seqNo)[j]? = some p) :
    p.packet.data = [] ↔ j + 1 = (packetsFrom cfg heap file seqNo).length := by
  induction file, seqNo using file_induction generalizing j with
  | hnil seqNo =>
      rw [packetsFrom_nil, List.getElem?_singleton] at hp
      split at hp
      · cases hp
        subst j
        simp [dataPacket]
      · cases hp
  | hcut file seqNo h ih =>
      rw [packetsFrom_of_ne_nil cfg heap h] at hp ⊢
      have hpos := packetsFrom_length_pos cfg heap (file.drop defaultPayloadSize) (seqNo + 1)
      rw [List.length_cons]
      cases j with
      | zero =>
          cases hp
          refine iff_of_false (take_ne_nil h) (by omega)
      | succ j =>
          rw [ih j hp]
          omega

theorem readIntoBuffer_eq {buffer : DataBuffer} {packets : List DataPacket}
    (h : Rep buffer packets) (file : Bytes) {seqNo : Int}
    (hseq : seqNo = buffer.minSeqNo + packets.length) (hroom : packets.length < buffer.maxCount) :
    ∃ buffer', readIntoBuffer cfg heap file seqNo buffer = some (buffer', decide (file ≠ [])) ∧
      Rep buffer' (packets ++ [dataPacket cfg heap seqNo (file.take defaultPayloadSize)]) ∧
      buffer'.minSeqNo = buffer.minSeqNo ∧ buffer'.maxCount = buffer.maxCount := by
  obtain ⟨buffer', hput, hrest⟩ := h.put_eq
    (p := dataPacket cfg heap seqNo (file.take defaultPayloadSize)) hroom hseq
  have hmore : (decide ((file.take defaultPayloadSize).length ≠ 0)) = decide (file ≠ []) := by
    rw [decide_eq_decide, ne_eq, List.length_eq_zero_iff]
    by_cases hfile : file = []
    · simp [hfile]
    · exact iff_of_true (take_ne_nil hfile) hfile
  refine ⟨buffer', ?_, hrest⟩
  rw [readIntoBuffer, hput, Option.map_some, hmore]

section LoopEquations

variable {cfg heap} {file : Bytes} {seqNo : Int} {buffer buffer' : DataBuffer}

theorem readFileLoop_of_none (h : readIntoBuffer cfg heap file seqNo buffer = none) :
    readFileLoop cfg heap file seqNo buffer = none := by
  unfold readFileLoop
  split <;> simp_all

theorem readFileLoop_of_true
    (h : readIntoBuffer cfg heap file seqNo buffer = some (buffer', true)) :
    readFileLoop cfg heap file seqNo buffer =
      readFileLoop cfg heap (file.drop defaultPayloadSize) (seqNo + 1) buffer' := by
  rw [readFileLoop]
  split <;> simp_all

theorem readFileLoop_of_false
    (h : readIntoBuffer cfg heap file seqNo buffer = some (buffer', false)) :
    readFileLoop cfg heap file seqNo buffer = some (buffer', seqNo) := by
  unfold readFileLoop
  split <;> simp_all

end LoopEquations

/-- Reading a file appends its packets when they fit. -/
theorem readFileLoop_eq (file : Bytes) (seqNo : Int) {buffer : DataBuffer}
    {packets : List DataPacket} (h : Rep buffer packets)
    (hseq : seqNo = buffer.minSeqNo + packets.length)
    (hroom : packets.length + (packetsFrom cfg heap file seqNo).length ≤ buffer.maxCount) :
    ∃ buffer', readFileLoop cfg heap file seqNo buffer =
        some (buffer', seqNo + (packetsFrom cfg heap file seqNo).length - 1) ∧
      Rep buffer' (packets ++ packetsFrom cfg heap file seqNo) ∧
      buffer'.minSeqNo = buffer.minSeqNo := by
  induction file, seqNo using file_induction generalizing buffer packets with
  | hnil seqNo =>
      rw [packetsFrom_nil, List.length_singleton] at hroom ⊢
      obtain ⟨buffer', hread, hrep, hmin, -⟩ := readIntoBuffer_eq cfg heap h [] hseq (by omega)
      refine ⟨buffer', ?_, hrep, hmin⟩
      rw [readFileLoop_of_false (by simpa using hread), Nat.cast_one, Int.add_sub_cancel]
  | hcut file seqNo hfile ih =>
      rw [packetsFrom_of_ne_nil cfg heap hfile, List.length_cons] at hroom ⊢
      obtain ⟨middle, hread, hrep, hmin, hmax⟩ :=
        readIntoBuffer_eq cfg heap h file hseq (by omega)
      obtain ⟨last, hloop, hrep', hmin'⟩ := ih hrep
        (by rw [hmin, hseq, List.length_append, List.length_singleton]; push_cast; omega)
        (by rw [hmax, List.length_append, List.length_singleton]; omega)
      refine ⟨last, ?_, ?_, hmin'.trans hmin⟩
      · rw [readFileLoop_of_true (by simpa [hfile] using hread), hloop]
        push_cast
        congr 2
        omega
      · rwa [List.append_assoc, List.singleton_append] at hrep'

/-- A file whose packets do not fit fails the assertion of `putDataPacketIntoBuffer`. -/
theorem readFileLoop_full (file : Bytes) (seqNo : Int) {buffer : DataBuffer}
    {packets : List DataPacket} (h : Rep buffer packets)
    (hseq : seqNo = buffer.minSeqNo + packets.length)
    (hfull : buffer.maxCount < packets.length + (packetsFrom cfg heap file seqNo).length) :
    readFileLoop cfg heap file seqNo buffer = none := by
  induction file, seqNo using file_induction generalizing buffer packets with
  | hnil seqNo =>
      have hle := h.length_le
      rw [packetsFrom_nil, List.length_singleton] at hfull
      have hput := h.put_full (by omega) (dataPacket cfg heap seqNo [])
      have hread : readIntoBuffer cfg heap [] seqNo buffer = none := by
        rw [readIntoBuffer, List.take_nil, hput, Option.map_none]
      exact readFileLoop_of_none hread
  | hcut file seqNo hfile ih =>
      have hle := h.length_le
      rw [packetsFrom_of_ne_nil cfg heap hfile, List.length_cons] at hfull
      rcases Nat.lt_or_eq_of_le hle with hlt | heq
      · obtain ⟨middle, hread, hrep, hmin, hmax⟩ := readIntoBuffer_eq cfg heap h file hseq hlt
        rw [readFileLoop_of_true (by simpa [hfile] using hread)]
        refine ih hrep ?_ ?_
        · rw [hmin, hseq, List.length_append, List.length_singleton]
          push_cast
          omega
        · rw [hmax, List.length_append, List.length_singleton]
          omega
      · have hread : readIntoBuffer cfg heap file seqNo buffer = none := by
          rw [readIntoBuffer, h.put_full heq, Option.map_none]
        exact readFileLoop_of_none hread

/-- What `readFileIntoBuffer` leaves in the buffer when it accepts a file. -/
theorem readFileIntoBuffer_some {file : Bytes} {buffer : DataBuffer} {veryLastSeqNo : Int}
    (h : readFileIntoBuffer cfg heap file = some (buffer, veryLastSeqNo)) :
    Rep buffer (packetsFrom cfg heap file 0) ∧ buffer.minSeqNo = 0 ∧
      veryLastSeqNo = (filePackets cfg heap file).length - 1 := by
  have hrep := rep_allocate (n := maxFileSize) (by decide) (by decide)
  by_cases hroom : (packetsFrom cfg heap file 0).length ≤ maxFileSize
  · obtain ⟨buffer', hloop, hrep', hmin⟩ := readFileLoop_eq cfg heap file 0 hrep rfl
      (by simpa [allocateDataBuffer] using hroom)
    rw [readFileIntoBuffer, hloop] at h
    cases h
    rw [filePackets, List.length_map, Int.zero_add]
    exact ⟨hrep', hmin, rfl⟩
  · have hnone := readFileLoop_full cfg heap file 0 hrep rfl
      (by simpa [allocateDataBuffer] using hroom)
    rw [readFileIntoBuffer, hnone] at h
    cases h

/-! ### Exactness -/

theorem packetsFrom_length (file : Bytes) (seqNo : Int) :
    (packetsFrom cfg heap file seqNo).length =
      (file.length + (defaultPayloadSize - 1)) / defaultPayloadSize + 1 := by
  induction file, seqNo using file_induction with
  | hnil seqNo =>
      rw [packetsFrom_nil]
      rfl
  | hcut file seqNo h ih =>
      have hpos := List.length_pos_iff.mpr h
      rw [packetsFrom_of_ne_nil cfg heap h, List.length_cons, ih, List.length_drop, defaultPayloadSize]
      omega

/-- Every packet is full, apart from the last two. -/
theorem packetsFrom_full (file : Bytes) (seqNo : Int) (j : Nat) (p : DataPacket)
    (hp : (packetsFrom cfg heap file seqNo)[j]? = some p)
    (hj : j + 2 < (packetsFrom cfg heap file seqNo).length) :
    p.packet.data.length = defaultPayloadSize := by
  induction file, seqNo using file_induction generalizing j with
  | hnil seqNo =>
      rw [packetsFrom_nil, List.length_singleton] at hj
      omega
  | hcut file seqNo h ih =>
      rw [packetsFrom_of_ne_nil cfg heap h] at hp
      cases j with
      | zero =>
          cases hp
          rw [packetsFrom_length] at hj
          change (file.take defaultPayloadSize).length = defaultPayloadSize
          rw [List.length_take]
          simp only [defaultPayloadSize] at hj ⊢
          omega
      | succ j =>
          refine ih j hp ?_
          rw [packetsFrom_of_ne_nil cfg heap h, List.length_cons] at hj
          omega

/-- What the buffer is to hold when a file has been read: the packets, numbered from 0 on, of which the
last one is empty and those before the last two are full, and whose payloads make up the file. -/
structure SplitExactly (buffer : DataBuffer) (veryLastSeqNo : Int) (packets : List DataPacket)
    (file : Bytes) : Prop where
  first : getFirstSeqNoOfBuffer buffer = 0
  last : getLastSeqNoOfBuffer buffer = veryLastSeqNo
  length_eq : (packets.length : Int) = veryLastSeqNo + 1
  stored : ∀ (j : Nat) (p : DataPacket), packets[j]? = some p →
    getDataPacketFromBuffer buffer j = .live p ∧ p.packet.seqNo = j
  empty_iff : ∀ (j : Nat) (p : DataPacket), packets[j]? = some p →
    (p.packet.data = [] ↔ (j : Int) = veryLastSeqNo)
  full : ∀ (j : Nat) (p : DataPacket), packets[j]? = some p → (j : Int) < veryLastSeqNo - 1 →
    p.packet.data.length = defaultPayloadSize
  size_eq : ∀ p ∈ packets, p.packet.size = headerSize + p.packet.data.length
  content : packets.flatMap (·.packet.data) = file

/-- A file is read exactly if its packets fit into the buffer. -/
theorem readFileIntoBuffer_isSome_iff (file : Bytes) :
    (readFileIntoBuffer cfg heap file).isSome = true ↔
      (packetsFrom cfg heap file 0).length ≤ maxFileSize := by
  have hrep := rep_allocate (n := maxFileSize) (by decide) (by decide)
  by_cases hroom : (packetsFrom cfg heap file 0).length ≤ maxFileSize
  · obtain ⟨buffer, hloop, -⟩ := readFileLoop_eq cfg heap file 0 hrep rfl
      (by simpa [allocateDataBuffer] using hroom)
    rw [readFileIntoBuffer, hloop]
    exact iff_of_true rfl hroom
  · have hnone := readFileLoop_full cfg heap file 0 hrep rfl (by simpa [allocateDataBuffer] using hroom)
    rw [readFileIntoBuffer, hnone]
    exact iff_of_false Bool.false_ne_true hroom

/-- **Splitting a file.** A file is read without a failing assertion exactly if it leaves the last slot
for the end marker, and the buffer then holds the packets that it is split into. -/
theorem file_split_exactly (file : Bytes) :
    ((readFileIntoBuffer cfg heap file).isSome = true ↔
      file.length ≤ (maxFileSize - 1) * defaultPayloadSize) ∧
    ∀ buffer veryLastSeqNo, readFileIntoBuffer cfg heap file = some (buffer, veryLastSeqNo) →
      ∃ packets, SplitExactly buffer veryLastSeqNo packets file := by
  constructor
  · rw [readFileIntoBuffer_isSome_iff, packetsFrom_length]
    simp only [maxFileSize, defaultPayloadSize]
    omega
  · intro buffer veryLastSeqNo hread
    obtain ⟨hrep, hmin, hlast⟩ := readFileIntoBuffer_some cfg heap hread
    rw [filePackets, List.length_map] at hlast
    have hcount := hrep.countEq
    refine ⟨packetsFrom cfg heap file 0, hmin, ?_, by omega, fun j p hp => ⟨?_, ?_⟩, fun j p hp => ?_,
      fun j p hp hj => ?_, fun p hp => ?_, packetsFrom_content cfg heap file 0⟩
    · rw [getLastSeqNoOfBuffer]
      omega
    · have hget := hrep.get_eq hp
      rwa [hmin, Int.zero_add] at hget
    · rw [packetsFrom_numbered cfg heap file 0 j p hp, Int.zero_add]
    · rw [packetsFrom_empty_iff cfg heap file 0 j p hp]
      omega
    · exact packetsFrom_full cfg heap file 0 j p hp (by omega)
    · rw [(packetsFrom_wellFormed cfg heap file 0 p hp).1, Nat.add_comm]

end ComputerNetworking.GoBackN
