import Mathlib.Data.List.Induction
import Mathlib.Data.List.Nodup
import ComputerNetworking.BufferFifo
import ComputerNetworking.Transition

/-! Runs of calls on the packet buffer.

A run puts packets into the buffer and frees the oldest ones. What it leaves is computed from the calls
alone, as a list of packets, and the buffer is compared with this list after every run. -/

namespace ComputerNetworking.GoBackN

open Transition

/-- The calls that change which packets are in the buffer. -/
inductive BufferCall where
  | put (data : DataPacket)
  | free (start stop : Int)
  deriving DecidableEq, Repr

def BufferCall.apply (buffer : DataBuffer) : BufferCall → Option DataBuffer
  | .put data => putDataPacketIntoBuffer buffer data
  | .free start stop => freeBuffer buffer start stop

/-- The call returns, with all assertions passed. -/
def Called (buffer : DataBuffer) (call : BufferCall) (next : DataBuffer) : Prop :=
  call.apply buffer = some next

/-- A free begins at the first number of the buffer and does not go past the last one. -/
def InRange (buffer : DataBuffer) : BufferCall → Prop
  | .put _ => True
  | .free start stop => start = getFirstSeqNoOfBuffer buffer ∧ stop ≤ getLastSeqNoOfBuffer buffer

/-- What a call does to the list of the packets put and not freed. -/
def BufferCall.onPackets (packets : List DataPacket) : BufferCall → List DataPacket
  | .put data => packets ++ [data]
  | .free start stop =>
      packets.filter fun p => decide (p.packet.seqNo < start ∨ stop < p.packet.seqNo)

/-- The packets that the calls have put and not freed, oldest first. -/
def packetsAfter (calls : List BufferCall) : List DataPacket :=
  calls.foldl BufferCall.onPackets []

namespace Rep

variable {buffer buffer' : DataBuffer} {packets : List DataPacket}

/-- The assertions of `putDataPacketIntoBuffer` leave one number. -/
theorem put_isSome_iff (h : Rep buffer packets) (p : DataPacket) :
    (putDataPacketIntoBuffer buffer p).isSome = true ↔
      buffer.count < buffer.maxCount ∧ p.packet.seqNo = buffer.minSeqNo + buffer.count := by
  have hcount := h.countEq
  constructor
  · intro hput
    unfold putDataPacketIntoBuffer at hput
    split at hput
    swap
    · cases hput
    rename_i hasserts
    obtain ⟨hroom, hge, hlt, hslot⟩ := hasserts
    obtain ⟨j, hj⟩ := Int.le.dest hge
    -- two numbers below the capacity with the same remainder are the same
    rw [← hj, slotIndex_add, h.freeEq] at hslot
    have := RingLayout.index_inj (by omega) hroom hslot
    exact ⟨hroom, by omega⟩
  · rintro ⟨hroom, hseq⟩
    obtain ⟨next, hput, -⟩ := h.put_eq (p := p) (by omega) (by omega)
    rw [hput]
    rfl

/-- A free from the first number on takes the packets of the list with these numbers. -/
theorem drop_eq_filter (h : Rep buffer packets) (k : Nat) :
    packets.filter (fun p => decide (p.packet.seqNo < buffer.minSeqNo ∨
      buffer.minSeqNo + k - 1 < p.packet.seqNo)) = packets.drop k := by
  have hnumber {j : Nat} {p : DataPacket} (hp : packets[j]? = some p) := h.numbered j p hp
  rw [← List.take_append_drop k packets, List.filter_append]
  have hnone : (packets.take k).filter (fun p => decide (p.packet.seqNo < buffer.minSeqNo ∨
      buffer.minSeqNo + k - 1 < p.packet.seqNo)) = [] := by
    rw [List.filter_eq_nil_iff]
    intro p hp
    obtain ⟨j, hj, rfl⟩ := List.getElem_of_mem hp
    have hget := hnumber (j := j) (p := (packets.take k)[j])
      (by rw [List.getElem_take]; exact List.getElem?_eq_getElem _)
    rw [List.length_take] at hj
    rw [decide_eq_true_iff]
    omega
  have hall : (packets.drop k).filter (fun p => decide (p.packet.seqNo < buffer.minSeqNo ∨
      buffer.minSeqNo + k - 1 < p.packet.seqNo)) = packets.drop k := by
    rw [List.filter_eq_self]
    intro p hp
    obtain ⟨j, hj, rfl⟩ := List.getElem_of_mem hp
    have hget := hnumber (j := k + j) (p := (packets.drop k)[j])
      (by rw [List.getElem_drop]; exact List.getElem?_eq_getElem _)
    rw [decide_eq_true_iff]
    omega
  rw [hnone, hall, List.nil_append, List.take_append_drop]

/-- A call in range does to the buffer what it does to the list. -/
theorem called (h : Rep buffer packets) {call : BufferCall} (hrange : InRange buffer call)
    (hcall : Called buffer call buffer') :
    Rep buffer' (call.onPackets packets) ∧ buffer'.maxCount = buffer.maxCount := by
  have hcount := h.countEq
  cases call with
  | put p =>
      have hsome : (putDataPacketIntoBuffer buffer p).isSome = true := by
        rw [show putDataPacketIntoBuffer buffer p = some buffer' from hcall]
        rfl
      obtain ⟨hroom, hseq⟩ := (h.put_isSome_iff p).mp hsome
      obtain ⟨next, hput, hrep, -, hmax⟩ := h.put_eq (p := p) (by omega) (by omega)
      obtain rfl := Option.some.inj (hput.symm.trans hcall)
      exact ⟨hrep, hmax⟩
  | free start stop =>
      obtain ⟨rfl, hstop⟩ := hrange
      unfold getLastSeqNoOfBuffer at hstop
      have hle : buffer.minSeqNo ≤ stop := by
        by_contra hlt
        change freeBuffer buffer buffer.minSeqNo stop = some buffer' at hcall
        rw [freeBuffer, if_neg fun hasserts : FreeAsserts _ _ _ => hlt hasserts.1] at hcall
        cases hcall
      obtain ⟨k, rfl⟩ : ∃ k : Nat, stop = buffer.minSeqNo + k - 1 :=
        ⟨(stop + 1 - buffer.minSeqNo).toNat, by omega⟩
      obtain ⟨next, hfree, hrep, -, hmax⟩ := h.free_eq (k := k) (by omega) (by omega)
      obtain rfl := Option.some.inj (hfree.symm.trans hcall)
      refine ⟨?_, hmax⟩
      change Rep next (packets.filter _)
      rwa [getFirstSeqNoOfBuffer, h.drop_eq_filter]

end Rep

/-- The buffer stands for the packets that are left. -/
theorem rep_packetsAfter {n : Nat} (hpos : 1 ≤ n) (hsize : n < 2 ^ 64) {calls : List BufferCall}
    {buffer : DataBuffer} (hrun : Run (Guarded InRange Called) (allocateDataBuffer n) calls buffer) :
    Rep buffer (packetsAfter calls) ∧ buffer.maxCount = n := by
  have hfrom {b b' : DataBuffer} {packets : List DataPacket} {calls : List BufferCall}
      (hrun : Run (Guarded InRange Called) b calls b') (h : Rep b packets) :
      Rep b' (calls.foldl BufferCall.onPackets packets) ∧ b'.maxCount = b.maxCount := by
    induction hrun generalizing packets with
    | nil => exact ⟨h, rfl⟩
    | cons hstep _ ih =>
        obtain ⟨hrep, hmax⟩ := h.called hstep.1 hstep.2
        obtain ⟨hrep', hmax'⟩ := ih hrep
        exact ⟨hrep', hmax'.trans hmax⟩
  exact hfrom hrun (rep_allocate hpos hsize)

/-- The packet with a number is the one that the list has under it. -/
theorem Rep.find_eq {buffer : DataBuffer} {packets : List DataPacket} (h : Rep buffer packets)
    (seqNo : Int) : getDataPacketFromBuffer buffer seqNo =
      match packets.find? fun p => p.packet.seqNo = seqNo with
      | some p => .live p
      | none => .null := by
  by_cases hout : seqNo < buffer.minSeqNo ∨ buffer.minSeqNo + packets.length ≤ seqNo
  · have hnone : packets.find? (fun p => decide (p.packet.seqNo = seqNo)) = none := by
      rw [List.find?_eq_none]
      intro p hp heq
      obtain ⟨j, hj, rfl⟩ := List.getElem_of_mem hp
      have := h.numbered j _ (List.getElem?_eq_getElem hj)
      rw [decide_eq_true_iff] at heq
      omega
    rw [h.get_eq_null hout, hnone]
  · rw [not_or, not_lt, not_le] at hout
    obtain ⟨j, rfl⟩ := Int.le.dest hout.1
    have hj : j < packets.length := by omega
    have hp : packets[j]? = some packets[j] := List.getElem?_eq_getElem hj
    have hfind : packets.find? (fun p => decide (p.packet.seqNo = buffer.minSeqNo + j)) =
        some packets[j] := by
      rw [List.find?_eq_some_iff_getElem]
      refine ⟨by simp [h.numbered j _ hp], j, hj, rfl, fun i hi => ?_⟩
      have := h.numbered i _ (List.getElem?_eq_getElem (by omega))
      simp only [Bool.not_eq_true', decide_eq_false_iff_not]
      omega
    rw [h.get_eq hp, hfind]

theorem Rep.contains_iff {buffer : DataBuffer} {packets : List DataPacket} (h : Rep buffer packets)
    (seqNo : Int) : bufferContainsPacket buffer seqNo = true ↔ ∃ p ∈ packets, p.packet.seqNo = seqNo := by
  have hcount := h.countEq
  rw [bufferContainsPacket, decide_eq_true_iff]
  constructor
  · intro hrange
    have hj : (seqNo - buffer.minSeqNo).toNat < packets.length := by omega
    have := h.numbered _ _ (List.getElem?_eq_getElem hj)
    exact ⟨_, List.getElem_mem hj, by omega⟩
  · rintro ⟨p, hp, rfl⟩
    obtain ⟨j, hj, rfl⟩ := List.getElem_of_mem hp
    have := h.numbered j _ (List.getElem?_eq_getElem hj)
    omega

/-- **The buffer is a bounded queue.** After every run of calls the buffer stands for the packets put
and not freed: they lie in order around the array and are numbered from `minSeqNo` on. The next
packet is accepted exactly if there is room and it has the next number, every free in range of at least
one packet returns, and a packet is found exactly if it is in the list. -/
theorem buffer_is_queue (n : Nat) (hpos : 1 ≤ n) (hsize : n < 2 ^ 64) (calls : List BufferCall)
    (buffer : DataBuffer) (hrun : Run (Guarded InRange Called) (allocateDataBuffer n) calls buffer) :
    (∀ (j : Nat) (p : DataPacket), (packetsAfter calls)[j]? = some p → p.packet.seqNo = buffer.minSeqNo + j ∧
      buffer.data[(buffer.firstIndex + j) % n]? = some (.live p)) ∧
    buffer.count = (packetsAfter calls).length ∧ buffer.count ≤ n ∧
    buffer.freeIndex = (buffer.firstIndex + buffer.count) % n ∧
    (∀ p, (putDataPacketIntoBuffer buffer p).isSome = true ↔
      buffer.count < n ∧ p.packet.seqNo = buffer.minSeqNo + buffer.count) ∧
    (∀ stop, buffer.minSeqNo ≤ stop → stop ≤ getLastSeqNoOfBuffer buffer →
      (freeBuffer buffer buffer.minSeqNo stop).isSome = true) ∧
    (∀ seqNo, getDataPacketFromBuffer buffer seqNo =
      match (packetsAfter calls).find? fun p => p.packet.seqNo = seqNo with
      | some p => .live p
      | none => .null) ∧
    ∀ seqNo, bufferContainsPacket buffer seqNo = true ↔
      ∃ p ∈ packetsAfter calls, p.packet.seqNo = seqNo := by
  obtain ⟨h, rfl⟩ := rep_packetsAfter hpos hsize hrun
  have hcount := h.countEq
  refine ⟨fun j p hp => ⟨h.numbered j p hp, ?_⟩, hcount, hcount ▸ h.length_le, h.freeEq,
    h.put_isSome_iff, fun stop hmin hlast => ?_, h.find_eq, h.contains_iff⟩
  · have hj : j < (packetsAfter calls).length := (List.getElem?_eq_some_iff.mp hp).1
    have hitem := h.layout.item j (by rwa [List.length_map])
    rw [h.capacity, List.getElem?_map, hp] at hitem
    exact hitem
  · unfold getLastSeqNoOfBuffer at hlast
    obtain ⟨k, rfl⟩ : ∃ k : Nat, stop = buffer.minSeqNo + k - 1 :=
      ⟨(stop + 1 - buffer.minSeqNo).toNat, by omega⟩
    obtain ⟨next, hfree, -⟩ := h.free_eq (k := k) (by omega) (by omega)
    rw [hfree]
    rfl

/-! ### The arithmetic of `size_t`

The sums of a `long` and a `size_t` in the assertions and in the lookup are numbers modulo `2 ^ 64`. As
long as the array can be allocated and the numbers are those of a `long`, nothing wraps. -/

/-- The conversion of a `long` to `size_t`. -/
def toSizeT (x : Int) : Nat := (x % 2 ^ 64).toNat

theorem toSizeT_eq {x : Int} (hnonneg : 0 ≤ x) (hlt : x < 2 ^ 64) : toSizeT x = x.toNat := by
  rw [toSizeT, Int.emod_eq_of_lt hnonneg hlt]

/-- The assertions of `putDataPacketIntoBuffer` as the types of C have them. -/
def PutAsserts (buffer : DataBuffer) (seqNo : Int) : Prop :=
  buffer.count < buffer.maxCount ∧ seqNo ≥ buffer.minSeqNo ∧
    toSizeT seqNo < (toSizeT buffer.minSeqNo + buffer.maxCount) % 2 ^ 64 ∧
    (toSizeT (seqNo - buffer.minSeqNo) + buffer.firstIndex) % 2 ^ 64 % buffer.maxCount = buffer.freeIndex

/-- The condition under which `getDataPacketFromBuffer` returns `NULL`, as the types of C have it. -/
def GetMisses (buffer : DataBuffer) (seqNo : Int) : Prop :=
  seqNo < buffer.minSeqNo ∨ toSizeT seqNo ≥ (toSizeT buffer.minSeqNo + buffer.count) % 2 ^ 64

section SizeT

variable {buffer : DataBuffer} {packets : List DataPacket}

theorem Rep.putAsserts_iff (h : Rep buffer packets) (halloc : 8 * buffer.maxCount < 2 ^ 64)
    (hmin : 0 ≤ buffer.minSeqNo) (hlong : buffer.minSeqNo < 2 ^ 63) (p : DataPacket)
    (hseq : p.packet.seqNo < 2 ^ 63) :
    PutAsserts buffer p.packet.seqNo ↔ (putDataPacketIntoBuffer buffer p).isSome = true := by
  have hfirst := h.firstLt
  have hfits {j : Nat} (hj : j < buffer.maxCount) :
      (j + buffer.firstIndex) % 2 ^ 64 = buffer.firstIndex + j := by
    rw [Nat.mod_eq_of_lt (by omega), Nat.add_comm]
  have hminSizeT := toSizeT_eq hmin (by omega)
  rw [h.put_isSome_iff, PutAsserts, hminSizeT, Nat.mod_eq_of_lt (by omega), h.freeEq]
  constructor
  · rintro ⟨hroom, hge, hlt, hslot⟩
    rw [toSizeT_eq (by omega) (by omega)] at hlt hslot
    rw [hfits (by omega)] at hslot
    have := RingLayout.index_inj (by omega) hroom hslot
    exact ⟨hroom, by omega⟩
  · rintro ⟨hroom, heq⟩
    have hdist : p.packet.seqNo - buffer.minSeqNo = (buffer.count : Int) := by omega
    rw [hdist, toSizeT_eq (by omega) (by omega), toSizeT_eq (by omega) (by omega), Int.toNat_natCast,
      hfits hroom]
    exact ⟨hroom, by omega, by omega, rfl⟩

theorem Rep.getMisses_iff (h : Rep buffer packets) (halloc : 8 * buffer.maxCount < 2 ^ 64)
    (hmin : 0 ≤ buffer.minSeqNo) (hlong : buffer.minSeqNo < 2 ^ 63) {seqNo : Int}
    (hseq : seqNo < 2 ^ 63) :
    GetMisses buffer seqNo ↔ seqNo < buffer.minSeqNo ∨ seqNo ≥ buffer.minSeqNo + buffer.count := by
  have hle := h.length_le
  have hcount := h.countEq
  refine or_congr_right' fun hge => ?_
  rw [toSizeT_eq hmin (by omega), toSizeT_eq (by omega) (by omega), Nat.mod_eq_of_lt (by omega)]
  omega

end SizeT

/-- A packet with a number and a time. -/
def numberedPacket (seqNo : Int) (timeout : Timeval) : DataPacket :=
  ⟨timeout, ⟨headerSize, 0, 0, 0, 0, seqNo, -1, false, []⟩⟩

/-- Calls that leave two packets around the end of an array for three. -/
def wrappingCalls : List BufferCall :=
  [.put (numberedPacket 0 ⟨5, 0⟩), .put (numberedPacket 1 ⟨6, 0⟩), .put (numberedPacket 2 ⟨7, 0⟩),
    .free 0 1, .put (numberedPacket 3 ⟨8, 0⟩)]

/-- The buffer after the first calls. -/
def wrappingBuffer (k : Nat) : DataBuffer :=
  ((wrappingCalls.take k).foldlM BufferCall.apply (allocateDataBuffer 3)).getD (allocateDataBuffer 3)

theorem wrapping_run :
    Run (Guarded InRange Called) (allocateDataBuffer 3) wrappingCalls (wrappingBuffer 5) := by
  have hcalled (k : Nat) (call : BufferCall)
      (h : call.apply (wrappingBuffer k) = some (wrappingBuffer (k + 1))) :
      Called (wrappingBuffer k) call (wrappingBuffer (k + 1)) := h
  exact .cons ⟨trivial, hcalled 0 _ (by decide)⟩ (.cons ⟨trivial, hcalled 1 _ (by decide)⟩
    (.cons ⟨trivial, hcalled 2 _ (by decide)⟩ (.cons ⟨⟨by decide, by decide⟩, hcalled 3 _ (by decide)⟩
      (.single ⟨trivial, hcalled 4 _ (by decide)⟩))))

theorem buffer_is_queue_wrapping : bufferContainsPacket (wrappingBuffer 5) 3 = true :=
  ((buffer_is_queue 3 (by decide) (by decide) _ _ wrapping_run).2.2.2.2.2.2.2 3).mpr
    ⟨numberedPacket 3 ⟨8, 0⟩, by decide, rfl⟩

/-! ### The loops over the buffer -/

/-- `printBuffer`: the number of packets and the messages that it prints. -/
def printBuffer (buffer : DataBuffer) : Option (Nat × List GoBackNMessageStruct) :=
  ((visited buffer).mapM fun i =>
    match buffer.data.getD i .null with
    | .live p => some p.packet
    | _ => none).map fun lines => (buffer.count % 2 ^ 32, lines)

/-- The slots of the packets in the buffer, from the oldest on. -/
def packetSlots (buffer : DataBuffer) : List Nat :=
  (List.range buffer.count).map fun (j : Nat) => slotIndex buffer (buffer.minSeqNo + j)

/-- What is expected of the loops: they visit the slot of every packet of the buffer once and no other,
`resetTimers` sets the times of these packets, and `printBuffer` prints them. -/
structure ReachesPackets (buffer : DataBuffer) (packets : List DataPacket) : Prop where
  visits : visited buffer = packetSlots buffer
  once : (visited buffer).Nodup
  resets : ∃ next, resetTimers buffer = some next ∧
    Rep next (packets.map fun p => { p with timeout := .never }) ∧
    ∀ i, i ∉ packetSlots buffer → next.data[i]? = buffer.data[i]?
  prints : printBuffer buffer = some (packets.length % 2 ^ 32, packets.map (·.packet))

/-- The values of a partial function on the first numbers. -/
theorem mapM_range {β : Type*} {f : Nat → Option β} (l : List β)
    (h : ∀ (j : Nat) (b : β), l[j]? = some b → f j = some b) : (List.range l.length).mapM f = some l := by
  induction l using List.reverseRecOn with
  | nil => rfl
  | append_singleton l b ih =>
      have hinit : (List.range l.length).mapM f = some l := by
        refine ih fun j b hb => h j b ?_
        rwa [List.getElem?_append_left (List.getElem?_eq_some_iff.mp hb).1]
      have hlast : f l.length = some b := h _ _ List.getElem?_concat_length
      rw [List.length_append, List.length_singleton, List.range_succ, List.mapM_append, hinit,
        List.mapM_cons, hlast]
      rfl

theorem setTimeout_other {buffer next : DataBuffer} {i i' : Nat} {time : Timeval}
    (hset : setTimeout buffer i time = some next) (hne : i' ≠ i) : next.data[i']? = buffer.data[i']? := by
  unfold setTimeout at hset
  split at hset
  · cases hset
    exact List.getElem?_set_ne hne.symm
  · cases hset

/-- The loop of `resetTimers` leaves the slots alone that it does not visit. -/
theorem foldlM_setTimeout_other {buffer next : DataBuffer} {indices : List Nat} {time : Timeval}
    (hfold : indices.foldlM (fun buffer i => setTimeout buffer i time) buffer = some next) {i : Nat}
    (hi : i ∉ indices) : next.data[i]? = buffer.data[i]? := by
  induction indices generalizing buffer with
  | nil =>
      cases hfold
      rfl
  | cons first indices ih =>
      rw [List.foldlM_cons, Option.bind_eq_bind, Option.bind_eq_some_iff] at hfold
      obtain ⟨middle, hset, hfold⟩ := hfold
      rw [List.mem_cons, not_or] at hi
      exact (ih hfold hi.2).trans (setTimeout_other hset hi.1)

theorem packetSlots_eq_range (buffer : DataBuffer) : packetSlots buffer =
    (List.range buffer.count).map fun j => (buffer.firstIndex + j) % buffer.maxCount :=
  List.map_congr_left fun j _ => slotIndex_add buffer j

namespace Rep

variable {buffer : DataBuffer} {packets : List DataPacket}

theorem packetSlots_eq (h : Rep buffer packets) : packetSlots buffer =
    (List.range packets.length).map fun j => (buffer.firstIndex + j) % buffer.maxCount := by
  rw [packetSlots_eq_range, h.countEq]

/-- As long as there is room, the loop over the buffer ends at the first free slot. -/
theorem visitedFrom_eq (h : Rep buffer packets) (hroom : packets.length < buffer.maxCount)
    (rounds : Nat) {j : Nat} (hj : j ≤ packets.length) :
    visitedFrom buffer rounds ((buffer.firstIndex + j) % buffer.maxCount) =
      (List.range' j (min rounds (packets.length - j))).map
        fun j => (buffer.firstIndex + j) % buffer.maxCount := by
  have hfree := h.freeEq
  rw [h.countEq] at hfree
  induction rounds generalizing j with
  | zero => rw [Nat.zero_min]; rfl
  | succ rounds ih =>
      unfold visitedFrom
      rcases Nat.lt_or_eq_of_le hj with hlt | heq
      · have hne : (buffer.firstIndex + j) % buffer.maxCount ≠ buffer.freeIndex := by
          rw [hfree]
          intro hcell
          exact hlt.ne (RingLayout.index_inj (by omega) hroom hcell)
        have hmin : min (rounds + 1) (packets.length - j) =
            min rounds (packets.length - (j + 1)) + 1 := by omega
        rw [if_pos hne, RingLayout.index_add, ih (by omega), hmin, List.range'_succ, List.map_cons]
      · rw [if_neg (by rw [heq, hfree]; exact not_not_intro rfl), heq, Nat.sub_self, Nat.min_zero]
        rfl

theorem visited_eq (h : Rep buffer packets) (hroom : packets.length < buffer.maxCount) :
    visited buffer = packetSlots buffer := by
  have hloop := h.visitedFrom_eq hroom buffer.maxCount (Nat.zero_le packets.length)
  rw [Nat.add_zero, Nat.mod_eq_of_lt h.firstLt, Nat.sub_zero, Nat.min_eq_right hroom.le,
    ← List.range_eq_range'] at hloop
  rw [visited, hloop, h.packetSlots_eq]

/-- In a full buffer the loop ends before its first round. -/
theorem visited_full (h : Rep buffer packets) (hfull : packets.length = buffer.maxCount) :
    visited buffer = [] := by
  have hpos := h.firstLt
  have hfree : buffer.firstIndex = buffer.freeIndex := by
    rw [h.freeEq, h.countEq, hfull, Nat.add_mod_right, Nat.mod_eq_of_lt hpos]
  obtain ⟨rounds, hrounds⟩ : ∃ rounds, buffer.maxCount = rounds + 1 := ⟨buffer.maxCount - 1, by omega⟩
  rw [visited, hrounds, visitedFrom, if_neg (not_not_intro hfree)]

theorem packetSlots_nodup (h : Rep buffer packets) : (packetSlots buffer).Nodup := by
  rw [h.packetSlots_eq]
  exact RingLayout.indices_nodup h.length_le buffer.firstIndex

/-- Setting the times of the first packets, one after the other. -/
theorem setTimeouts_eq (h : Rep buffer packets) (time : Timeval) {k : Nat} (hk : k ≤ packets.length) :
    ∃ next, ((List.range k).map fun j => (buffer.firstIndex + j) % buffer.maxCount).foldlM
        (fun buffer i => setTimeout buffer i time) buffer = some next ∧
      Rep next ((packets.take k).map (fun p => { p with timeout := time }) ++ packets.drop k) ∧
      next.maxCount = buffer.maxCount ∧ next.firstIndex = buffer.firstIndex := by
  induction k with
  | zero => exact ⟨buffer, rfl, by simpa using h, rfl, rfl⟩
  | succ k ih =>
      obtain ⟨middle, hfold, hrep, hmax, hfirst⟩ := ih (by omega)
      have hlength : ((packets.take k).map fun p : DataPacket => { p with timeout := time }).length = k := by
        rw [List.length_map, List.length_take]
        omega
      have hdrop : packets.drop k = packets[k] :: packets.drop (k + 1) :=
        List.drop_eq_getElem_cons (by omega)
      obtain ⟨next, p, hp, hset, hrep', -, hmax', hfirst', -⟩ := hrep.setTimeout_eq (j := k)
        (by rw [List.length_append, hlength, List.length_drop]; omega) time
      rw [List.getElem?_append_right (by omega), hlength, Nat.sub_self, hdrop,
        List.getElem?_cons_zero, Option.some.injEq] at hp
      subst hp
      refine ⟨next, ?_, ?_, hmax'.trans hmax, hfirst'.trans hfirst⟩
      · rw [List.range_succ, List.map_append, List.foldlM_append, hfold]
        rw [hfirst, hmax] at hset
        simpa using hset
      · rw [List.set_append_right _ _ (by omega), hlength, Nat.sub_self, hdrop, List.set_cons_zero] at hrep'
        rw [List.take_succ_eq_append_getElem (by omega), List.map_append, List.append_assoc]
        exact hrep'

theorem resetTimers_all (h : Rep buffer packets) (hroom : packets.length < buffer.maxCount) :
    ∃ next, resetTimers buffer = some next ∧
      Rep next (packets.map fun p => { p with timeout := .never }) ∧
      ∀ i, i ∉ packetSlots buffer → next.data[i]? = buffer.data[i]? := by
  obtain ⟨next, hfold, hrep, -⟩ := h.setTimeouts_eq .never le_rfl
  rw [← h.packetSlots_eq, ← h.visited_eq hroom] at hfold
  rw [List.take_length, List.drop_length, List.append_nil] at hrep
  refine ⟨next, hfold, hrep, fun i hi => ?_⟩
  rw [← h.visited_eq hroom] at hi
  exact foldlM_setTimeout_other hfold hi

theorem printBuffer_eq (h : Rep buffer packets) (hroom : packets.length < buffer.maxCount) :
    printBuffer buffer = some (packets.length % 2 ^ 32, packets.map (·.packet)) := by
  have hlength : packets.length = (packets.map (·.packet)).length := (List.length_map _).symm
  rw [printBuffer, h.visited_eq hroom, h.packetSlots_eq, List.mapM_map, hlength, mapM_range, h.countEq,
    ← hlength]
  · rfl
  · intro j line hline
    rw [List.getElem?_map, Option.map_eq_some_iff] at hline
    obtain ⟨p, hp, rfl⟩ := hline
    rw [Function.comp_apply, h.slot_eq hp]

end Rep

/-- **The loops over the buffer.** In every state that puts and frees in range lead to, `resetTimers` and
`printBuffer` reach every packet of the buffer once and no other slot exactly if the buffer is not full:
in a full buffer `firstIndex` and `freeIndex` are equal, and the loop reaches none. -/
theorem loops_reach_packets_iff (n : Nat) (hpos : 1 ≤ n) (hsize : n < 2 ^ 64) (calls : List BufferCall)
    (buffer : DataBuffer) (hrun : Run (Guarded InRange Called) (allocateDataBuffer n) calls buffer) :
    ReachesPackets buffer (packetsAfter calls) ↔ buffer.count < n := by
  obtain ⟨h, rfl⟩ := rep_packetsAfter hpos hsize hrun
  have hcount := h.countEq
  have hle := h.length_le
  constructor
  · intro hreaches
    by_contra hfull
    have hslots := hreaches.visits
    rw [h.visited_full (by omega), h.packetSlots_eq] at hslots
    have hlength := congrArg List.length hslots
    rw [List.length_map, List.length_range, List.length_nil] at hlength
    omega
  · intro hroom
    rw [hcount] at hroom
    exact ⟨h.visited_eq hroom, h.visited_eq hroom ▸ h.packetSlots_nodup, h.resetTimers_all hroom,
      h.printBuffer_eq hroom⟩

theorem loops_reach_packets_iff_wrapping :
    ReachesPackets (wrappingBuffer 5) (packetsAfter wrappingCalls) :=
  (loops_reach_packets_iff 3 (by decide) (by decide) _ _ wrapping_run).mpr (by decide)

/-- A buffer for one packet is full after the first put. The loops then reach nothing: the timeout of the
packet stays, and only the line with the number of packets is printed. -/
theorem full_buffer_not_reached : ∃ buffer,
    Run (Guarded InRange Called) (allocateDataBuffer 1) [.put (numberedPacket 0 ⟨5, 0⟩)] buffer ∧
      buffer.count = 1 ∧ visited buffer = [] ∧ resetTimers buffer = some buffer ∧
      getDataPacketFromBuffer buffer 0 = .live (numberedPacket 0 ⟨5, 0⟩) ∧
      printBuffer buffer = some (1, []) ∧
      ¬ReachesPackets buffer (packetsAfter [.put (numberedPacket 0 ⟨5, 0⟩)]) := by
  refine ⟨_, .single ⟨trivial, rfl⟩, by decide, by decide, by decide, by decide, by decide, fun h => ?_⟩
  have hprints := h.prints
  revert hprints
  decide

end ComputerNetworking.GoBackN
