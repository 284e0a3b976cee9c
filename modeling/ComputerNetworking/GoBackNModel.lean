import ComputerNetworking.BufferModel

/-! The Go-Back-N sender and receiver (`GoBackNSender.c`, `GoBackNReceiver.c`).

One round of each main loop is a function of the program state and of what the operating system
answers in that round: the message that `recv` hands over, whether the socket takes data, the clock.
As in the buffer, `none` stands for the end of the program by a failed assertion or by a pointer to
nothing. The contents of fresh `malloc` memory are a parameter. -/

namespace ComputerNetworking.GoBackN

/-- `DEFAULT_PAYLOAD_SIZE`. -/
def defaultPayloadSize : Nat := 1024

/-- `MAX_FILE_SIZE`, the capacity of the buffer in packets. -/
def maxFileSize : Nat := 1024

/-- The options of the sender. The type of `window` is `unsigned`. `destNode` and `destAppl` are what a packet
holds of the options, which are `long`: that they are cut to 32 bits is left out. -/
structure SenderConfig where
  timeout : Timeval
  window : Nat
  destNode : Int
  destAppl : Int
  deriving DecidableEq, Repr

/-- The fields of a packet that `readIntoBuffer` leaves as `malloc` delivers them. -/
structure FreshPacket where
  timeout : Timeval
  srcNode : Int
  srcAppl : Int
  deriving DecidableEq, Repr

/-- The variables of the sender, with the local variable `veryLastSeqNo` of `main`. -/
structure Sender where
  dataBuffer : DataBuffer
  veryLastSeqNo : Int
  lastAckSeqNo : Int
  nextSendSeqNo : Int
  timerExpiration : Timeval
  deriving DecidableEq, Repr

section File

variable (cfg : SenderConfig) (heap : Int → FreshPacket)

/-- The packet that `readIntoBuffer` makes of the bytes that `fread` returned. -/
def dataPacket (seqNo : Int) (chunk : Bytes) : DataPacket where
  timeout := (heap seqNo).timeout
  packet := {
    size := chunk.length + headerSize
    srcNode := (heap seqNo).srcNode
    srcAppl := (heap seqNo).srcAppl
    destNode := cfg.destNode
    destAppl := cfg.destAppl
    seqNo := seqNo
    seqNoExpected := -1
    hasErrors := false
    data := chunk }

/-- `readIntoBuffer` on what is left of the file: the buffer and the result, `false` at the end. -/
def readIntoBuffer (file : Bytes) (seqNo : Int) (buffer : DataBuffer) : Option (DataBuffer × Bool) :=
  let chunk := file.take defaultPayloadSize
  (putDataPacketIntoBuffer buffer (dataPacket cfg heap seqNo chunk)).map fun buffer =>
    (buffer, decide (chunk.length ≠ 0))

theorem ne_nil_of_readIntoBuffer {file : Bytes} {seqNo : Int} {buffer buffer' : DataBuffer}
    (h : readIntoBuffer cfg heap file seqNo buffer = some (buffer', true)) : file ≠ [] := by
  rintro rfl
  simp [readIntoBuffer] at h

/-- The loop of `readFileIntoBuffer`. -/
def readFileLoop (file : Bytes) (seqNo : Int) (buffer : DataBuffer) : Option (DataBuffer × Int) :=
  match h : readIntoBuffer cfg heap file seqNo buffer with
  | none => none
  | some (buffer, true) => readFileLoop (file.drop defaultPayloadSize) (seqNo + 1) buffer
  | some (buffer, false) => some (buffer, seqNo)
termination_by file.length
decreasing_by
  have hpos := List.length_pos_iff.mpr (ne_nil_of_readIntoBuffer cfg heap h)
  rw [List.length_drop, defaultPayloadSize]
  omega

/-- `readFileIntoBuffer` on the content of the file: the buffer and `veryLastSeqNo`. -/
def readFileIntoBuffer (file : Bytes) : Option (DataBuffer × Int) :=
  readFileLoop cfg heap file 0 (allocateDataBuffer maxFileSize)

end File

/-- The sender when it enters its main loop. -/
def initialSender (dataBuffer : DataBuffer) (veryLastSeqNo : Int) : Sender where
  dataBuffer := dataBuffer
  veryLastSeqNo := veryLastSeqNo
  lastAckSeqNo := 0
  nextSendSeqNo := 0
  timerExpiration := .never

section Sender

variable (cfg : SenderConfig)

/-- The guard under which the sender asks `select` whether the socket takes data. -/
def selectGuard (s : Sender) : Bool :=
  decide (s.nextSendSeqNo ≤ s.veryLastSeqNo ∧
    s.nextSendSeqNo ≤ getLastSeqNoOfBuffer s.dataBuffer ∧
    s.nextSendSeqNo < s.lastAckSeqNo + cfg.window)

/-- The handling of a message read from the socket. -/
def handleAck (s : Sender) (ack : GoBackNMessageStruct) : Option Sender :=
  if ack.hasErrors then some s
  else if ack.seqNoExpected > s.lastAckSeqNo then
    let seqNoOfACKdPacket := ack.seqNoExpected - 1
    let seqNoOfFirstPacketInBuffer := getFirstSeqNoOfBuffer s.dataBuffer
    (freeBuffer s.dataBuffer seqNoOfFirstPacketInBuffer seqNoOfACKdPacket).bind fun dataBuffer =>
      if getBufferSize dataBuffer > 0 then
        match getDataPacketFromBuffer dataBuffer ack.seqNoExpected with
        | .live nextUnacknowledgedPacket => some { s with
            dataBuffer := dataBuffer
            lastAckSeqNo := seqNoOfACKdPacket
            timerExpiration := nextUnacknowledgedPacket.timeout }
        | _ => none
      else some { s with
        dataBuffer := dataBuffer
        lastAckSeqNo := seqNoOfACKdPacket
        timerExpiration := .never }
  else some s

/-- The body of the timeout branch. -/
def handleTimeout (s : Sender) : Option Sender :=
  (resetTimers s.dataBuffer).map fun dataBuffer => { s with
    dataBuffer := dataBuffer
    nextSendSeqNo := s.lastAckSeqNo + 1
    timerExpiration := .never }

/-- The guard of the send loop. `window` is converted to `long` for the comparison. -/
def sendGuard (s : Sender) : Bool :=
  decide (s.nextSendSeqNo - s.lastAckSeqNo < cfg.window ∧ s.nextSendSeqNo ≤ s.veryLastSeqNo)

/-- What the send loop does once `send` has taken the packet, at the time `now`. -/
def afterSend (s : Sender) (now : Timeval) : Option Sender :=
  let timeout := timeradd now cfg.timeout
  (setTimeout s.dataBuffer (slotIndex s.dataBuffer s.nextSendSeqNo) timeout).map fun dataBuffer =>
    { s with
      dataBuffer := dataBuffer
      nextSendSeqNo := s.nextSendSeqNo + 1
      timerExpiration := if timerLt s.timerExpiration now then timeout else s.timerExpiration }

/-- The send loop with the messages it sends. The list holds the clock readings after each
successful `send`; behind its end `send` fails with `EAGAIN`. -/
def sendLoop : List Timeval → Sender → Option (Sender × List GoBackNMessageStruct)
  | [], s =>
      if sendGuard cfg s then
        match getDataPacketFromBuffer s.dataBuffer s.nextSendSeqNo with
        | .live _ => some (s, [])
        | _ => none
      else some (s, [])
  | now :: clock, s =>
      if sendGuard cfg s then
        match getDataPacketFromBuffer s.dataBuffer s.nextSendSeqNo with
        | .live data =>
            (afterSend cfg s now).bind fun s =>
              (sendLoop clock s).map fun (s, sent) => (s, data.packet :: sent)
        | _ => none
      else some (s, [])

/-- What the operating system answers in one round of the main loop of the sender. -/
structure IterationInput where
  /-- The message that `recv` returns, when `select` reports one. -/
  readable : Option GoBackNMessageStruct
  /-- Whether the socket takes data. -/
  writable : Bool
  /-- The clock when the timer is checked. -/
  now : Timeval
  /-- The clock after each successful `send`. -/
  clock : List Timeval
  deriving DecidableEq, Repr

def handleReadable (s : Sender) (input : IterationInput) : Option Sender :=
  match input.readable with
  | some ack => handleAck s ack
  | none => some s

/-- The sender when it comes to its send loop. -/
def beforeSend (expired : Bool) (input : IterationInput) (s : Sender) : Option Sender :=
  (handleReadable s input).bind fun s => if expired then handleTimeout s else some s

/-- One round of the main loop of the sender. `expired` is the outcome of the timer check. -/
def senderIteration (expired : Bool) (input : IterationInput) (s : Sender) :
    Option (Sender × List GoBackNMessageStruct) :=
  let writefds := selectGuard cfg s && input.writable
  (beforeSend expired input s).bind fun s =>
    if writefds then sendLoop cfg input.clock s else some (s, [])

end Sender

/-- The variables of the receiver and its output file. -/
structure Receiver where
  lastReceivedSeqNo : Int
  goodBytes : Nat
  totalBytes : Nat
  output : Bytes
  closed : Bool
  running : Bool
  deriving DecidableEq, Repr

/-- The receiver when it enters its main loop. -/
def initialReceiver : Receiver where
  lastReceivedSeqNo := -1
  goodBytes := 0
  totalBytes := 0
  output := []
  closed := false
  running := true

/-- The bytes that `writeBuffer` writes. -/
def writeBuffer (packet : GoBackNMessageStruct) : Bytes :=
  packet.data.take (packet.size - headerSize)

/-- The message that `sendAck` sends. -/
def sendAck (packet : GoBackNMessageStruct) (expected : Int) : GoBackNMessageStruct where
  size := headerSize
  srcNode := 0
  srcAppl := 0
  destNode := packet.srcNode
  destAppl := packet.srcAppl
  seqNo := -1
  seqNoExpected := expected
  hasErrors := false
  data := []

/-- The receiver after it has accepted a packet. -/
def acceptPacket (r : Receiver) (data : GoBackNMessageStruct) : Receiver :=
  { r with
    lastReceivedSeqNo := data.seqNo
    output := r.output ++ writeBuffer data
    goodBytes := r.goodBytes + (data.size - headerSize)
    closed := r.closed || decide (data.size = headerSize) }

/-- One round of the main loop of the receiver on a whole message, with the acknowledgement it
sends. For a message shorter than its header, which no sender makes, `totalBytes` stays here, while
`bytesRead - sizeof(*data)` of the source wraps. -/
def receiverIteration (r : Receiver) (data : GoBackNMessageStruct) :
    Receiver × Option GoBackNMessageStruct :=
  let bytesRead := data.size
  if bytesRead = 0 then ({ r with running := false }, none)
  else
    let r := { r with totalBytes := r.totalBytes + (bytesRead - headerSize) }
    if data.hasErrors then (r, none)
    else if data.seqNo ≠ r.lastReceivedSeqNo + 1 then (r, none)
    else
      let r := acceptPacket r data
      (r, some (sendAck data (r.lastReceivedSeqNo + 1)))

end ComputerNetworking.GoBackN
