import Mathlib.Data.List.Basic

/-! The packet buffer of the Go-Back-N sender (`DataBuffer.c`, `GoBackNMessageStruct.h`).

The C type `long` is `Int` and `size_t` is `Nat`, on a 64-bit machine. The one place where a `size_t`
may wrap is the counter that `freeBuffer` decrements. A function that may fail an assertion or follow
a pointer to nothing returns `none` there: the program ends. -/

namespace ComputerNetworking.GoBackN

/-- File contents and payloads. -/
abbrev Bytes := List UInt8

/-- `struct timeval`. -/
structure Timeval where
  tvSec : Int
  tvUsec : Int
  deriving DecidableEq, Repr

/-- `LONG_MAX` of a 64-bit machine. -/
def longMax : Int := 0x7fffffffffffffff

/-- The time the timers are set to when nothing is waited for. -/
def Timeval.never : Timeval := ⟨longMax, 0⟩

/-- `timercmp(a, b, <)`. -/
def timerLt (a b : Timeval) : Bool :=
  if a.tvSec = b.tvSec then decide (a.tvUsec < b.tvUsec) else decide (a.tvSec < b.tvSec)

/-- `timeradd(a, b, result)`. -/
def timeradd (a b : Timeval) : Timeval :=
  let result : Timeval := ⟨a.tvSec + b.tvSec, a.tvUsec + b.tvUsec⟩
  if result.tvUsec ≥ 1000000 then ⟨result.tvSec + 1, result.tvUsec - 1000000⟩ else result

/-- `struct GoBackNMessageStruct`; `data` is the payload behind the header. -/
structure GoBackNMessageStruct where
  size : Nat
  srcNode : Int
  srcAppl : Int
  destNode : Int
  destAppl : Int
  seqNo : Int
  seqNoExpected : Int
  hasErrors : Bool
  data : Bytes
  deriving DecidableEq, Repr

/-- `sizeof(GoBackNMessageStruct)`: seven 32-bit fields and the aligned flag. -/
def headerSize : Nat := 32

/-- A buffered message with the time at which its retransmission is due. -/
structure DataPacket where
  timeout : Timeval
  packet : GoBackNMessageStruct
  deriving DecidableEq, Repr

/-- A pointer of the array `data`: `NULL`, a packet, or a packet that has been freed. -/
inductive Slot where
  | null
  | live (p : DataPacket)
  | dangling
  deriving DecidableEq, Repr

/-- `struct DataBufferHead`. -/
structure DataBuffer where
  minSeqNo : Int
  maxCount : Nat
  firstIndex : Nat
  freeIndex : Nat
  count : Nat
  data : List Slot
  deriving DecidableEq, Repr

def allocateDataBuffer (maxPacketCount : Nat) : DataBuffer where
  minSeqNo := 0
  maxCount := maxPacketCount
  firstIndex := 0
  freeIndex := 0
  count := 0
  data := List.replicate maxPacketCount .null

def getFirstSeqNoOfBuffer (buffer : DataBuffer) : Int := buffer.minSeqNo

def getLastSeqNoOfBuffer (buffer : DataBuffer) : Int := buffer.minSeqNo + buffer.count - 1

def getBufferSize (buffer : DataBuffer) : Nat := buffer.count

def bufferContainsPacket (buffer : DataBuffer) (seqNo : Int) : Bool :=
  decide (0 ≤ seqNo - buffer.minSeqNo ∧ seqNo - buffer.minSeqNo < buffer.count)

/-- The index of the array at which the packet `seqNo` belongs. -/
def slotIndex (buffer : DataBuffer) (seqNo : Int) : Nat :=
  ((seqNo - buffer.minSeqNo + buffer.firstIndex) % buffer.maxCount).toNat

def getDataPacketFromBuffer (buffer : DataBuffer) (seqNo : Int) : Slot :=
  if seqNo < buffer.minSeqNo ∨ seqNo ≥ buffer.minSeqNo + buffer.count then .null
  else buffer.data.getD (slotIndex buffer seqNo) .null

def putDataPacketIntoBuffer (buffer : DataBuffer) (data : DataPacket) : Option DataBuffer :=
  if buffer.count < buffer.maxCount ∧ data.packet.seqNo ≥ buffer.minSeqNo ∧
      data.packet.seqNo < buffer.minSeqNo + buffer.maxCount ∧
      slotIndex buffer data.packet.seqNo = buffer.freeIndex then
    some { buffer with
      data := buffer.data.set buffer.freeIndex (.live data)
      freeIndex := (buffer.freeIndex + 1) % buffer.maxCount
      count := buffer.count + 1 }
  else none

/-- `--count` on a `size_t`. -/
def decrementSize (count : Nat) : Nat := (count + 0xffffffffffffffff) % 0x10000000000000000

/-- The pointer left behind by `free`; freeing it once more is undefined. -/
def freeSlot : Slot → Option Slot
  | .null => some .null
  | .live _ => some .dangling
  | .dangling => none

/-- The body of the loop of `freeBuffer`. -/
def freeFirst (buffer : DataBuffer) : Option DataBuffer :=
  (freeSlot (buffer.data.getD buffer.firstIndex .null)).map fun slot =>
    { buffer with
      data := buffer.data.set buffer.firstIndex slot
      firstIndex := (buffer.firstIndex + 1) % buffer.maxCount
      minSeqNo := buffer.minSeqNo + 1
      count := decrementSize buffer.count }

/-- The loop of `freeBuffer`, with the number of rounds left. -/
def freeLoop : Nat → Int → DataBuffer → Option DataBuffer
  | 0, _, buffer => some buffer
  | rounds + 1, i, buffer =>
      if i = buffer.minSeqNo then (freeFirst buffer).bind (freeLoop rounds (i + 1)) else none

/-- The entry assertions of `freeBuffer`. -/
def FreeAsserts (buffer : DataBuffer) (start stop : Int) : Prop :=
  stop ≥ start ∧ start = buffer.minSeqNo ∧ stop - start ≤ buffer.count

instance (buffer : DataBuffer) (start stop : Int) : Decidable (FreeAsserts buffer start stop) :=
  inferInstanceAs (Decidable (_ ∧ _ ∧ _))

def freeBuffer (buffer : DataBuffer) (start stop : Int) : Option DataBuffer :=
  if FreeAsserts buffer start stop then freeLoop (stop - start + 1).toNat start buffer else none

/-- The loop that `resetTimers` and `printBuffer` share: the indices from `i` up to `freeIndex`.
It takes at most `maxCount` rounds, because the indices go around the array. -/
def visitedFrom (buffer : DataBuffer) : Nat → Nat → List Nat
  | 0, _ => []
  | rounds + 1, i =>
      if i ≠ buffer.freeIndex then i :: visitedFrom buffer rounds ((i + 1) % buffer.maxCount)
      else []

/-- The indices that `resetTimers` and `printBuffer` visit. -/
def visited (buffer : DataBuffer) : List Nat :=
  visitedFrom buffer buffer.maxCount buffer.firstIndex

/-- Store a time through the pointer at an index. -/
def setTimeout (buffer : DataBuffer) (i : Nat) (time : Timeval) : Option DataBuffer :=
  match buffer.data.getD i .null with
  | .live p => some { buffer with data := buffer.data.set i (.live { p with timeout := time }) }
  | _ => none

def resetTimers (buffer : DataBuffer) : Option DataBuffer :=
  (visited buffer).foldlM (fun buffer i => setTimeout buffer i .never) buffer

end ComputerNetworking.GoBackN
