import ComputerNetworking.Transition
import ComputerNetworking.GoBackNSender

/-! The sender and the receiver with an unreliable channel between them.

The channel keeps the messages in flight. A party may take any of them, so that messages are delayed
and overtake each other; steps of the channel lose, duplicate and damage messages. A message is
damaged only together with its flag `hasErrors`, and the socket delivers whole messages.

When the sender may enter its timeout branch is a parameter. `codeTimer` is the check of the code;
the safety results hold under any rule. -/

namespace ComputerNetworking.GoBackN

open Transition

structure System where
  /-- The running sender; `none` once it has been ended by an assertion or a missing packet. -/
  sender : Option Sender
  receiver : Receiver
  dataChannel : List GoBackNMessageStruct
  ackChannel : List GoBackNMessageStruct
  /-- Every message the sender has sent so far. -/
  sent : List GoBackNMessageStruct
  deriving DecidableEq, Repr

inductive Action where
  | senderRound (expired : Bool) (input : IterationInput)
  | receiverRound (data : GoBackNMessageStruct)
  | dropData (data : GoBackNMessageStruct)
  | dropAck (ack : GoBackNMessageStruct)
  | duplicateData (data : GoBackNMessageStruct)
  | duplicateAck (ack : GoBackNMessageStruct)
  | damageData (data damaged : GoBackNMessageStruct)
  | damageAck (ack damaged : GoBackNMessageStruct)

/-- What the channel may make of a message: anything whole that fits, with the flag set. -/
def Damaged (capacity : Nat) (m : GoBackNMessageStruct) : Prop :=
  m.hasErrors = true ∧ m.size = m.data.length + headerSize ∧ m.data.length ≤ capacity

instance (capacity : Nat) (m : GoBackNMessageStruct) : Decidable (Damaged capacity m) :=
  inferInstanceAs (Decidable (_ ∧ _ ∧ _))

/-- When the timeout branch may be taken or skipped: after the messages of the system so far, in
the state in which the timer is checked, at the time of the check. -/
abbrev TimerRule := System → Sender → Timeval → Bool → Prop

/-- The check of the code: the timer lies in the past. -/
def codeTimer : TimerRule :=
  fun _ s now expired => expired = timerLt s.timerExpiration now

/-- A sent packet that is not acknowledged yet. -/
def UnacknowledgedSent (sys : System) (s : Sender) : Prop :=
  ∃ p ∈ sys.sent, bufferContainsPacket s.dataBuffer p.seqNo = true

/-- The branch may be taken whenever a sent packet is not acknowledged. -/
def generousTimer : TimerRule :=
  fun sys s _ expired => expired = true → UnacknowledgedSent sys s

/-- The acknowledgements in flight after the sender has read one. -/
def System.acksAfter (sys : System) (input : IterationInput) : List GoBackNMessageStruct :=
  match input.readable with
  | some ack => sys.ackChannel.erase ack
  | none => sys.ackChannel

/-- The system after a round of the sender. -/
def System.afterSender (sys : System) (input : IterationInput) :
    Option (Sender × List GoBackNMessageStruct) → System
  | some (s, sent) => { sys with
      sender := some s
      dataChannel := sys.dataChannel ++ sent
      ackChannel := sys.acksAfter input
      sent := sys.sent ++ sent }
  | none => { sys with sender := none, ackChannel := sys.acksAfter input }

/-- The system after a round of the receiver. -/
def System.afterReceiver (sys : System) (data : GoBackNMessageStruct) : System :=
  let (receiver, ack) := receiverIteration sys.receiver data
  { sys with
    receiver := receiver
    dataChannel := sys.dataChannel.erase data
    ackChannel := sys.ackChannel ++ ack.toList }

/-- The steps of the system. The loop condition of the sender is tested before each round. -/
inductive Step (cfg : SenderConfig) (rule : TimerRule) : System → Action → System → Prop where
  | senderRound {sys : System} {s : Sender} {expired : Bool} {input : IterationInput}
      (hs : sys.sender = some s) (hloop : 0 < getBufferSize s.dataBuffer)
      (hread : ∀ ack, input.readable = some ack → ack ∈ sys.ackChannel)
      (htimer : ∀ t, handleReadable s input = some t → rule sys t input.now expired) :
      Step cfg rule sys (.senderRound expired input)
        (sys.afterSender input (senderIteration cfg expired input s))
  | receiverRound {sys : System} {data : GoBackNMessageStruct}
      (hrun : sys.receiver.running = true) (hdata : data ∈ sys.dataChannel) :
      Step cfg rule sys (.receiverRound data) (sys.afterReceiver data)
  | dropData {sys : System} {data : GoBackNMessageStruct} (hdata : data ∈ sys.dataChannel) :
      Step cfg rule sys (.dropData data) { sys with dataChannel := sys.dataChannel.erase data }
  | dropAck {sys : System} {ack : GoBackNMessageStruct} (hack : ack ∈ sys.ackChannel) :
      Step cfg rule sys (.dropAck ack) { sys with ackChannel := sys.ackChannel.erase ack }
  | duplicateData {sys : System} {data : GoBackNMessageStruct} (hdata : data ∈ sys.dataChannel) :
      Step cfg rule sys (.duplicateData data) { sys with dataChannel := data :: sys.dataChannel }
  | duplicateAck {sys : System} {ack : GoBackNMessageStruct} (hack : ack ∈ sys.ackChannel) :
      Step cfg rule sys (.duplicateAck ack) { sys with ackChannel := ack :: sys.ackChannel }
  | damageData {sys : System} {data damaged : GoBackNMessageStruct}
      (hdata : data ∈ sys.dataChannel) (hdamaged : Damaged defaultPayloadSize damaged) :
      Step cfg rule sys (.damageData data damaged)
        { sys with dataChannel := damaged :: sys.dataChannel.erase data }
  | damageAck {sys : System} {ack damaged : GoBackNMessageStruct}
      (hack : ack ∈ sys.ackChannel) (hdamaged : Damaged 0 damaged) :
      Step cfg rule sys (.damageAck ack damaged)
        { sys with ackChannel := damaged :: sys.ackChannel.erase ack }

/-- Both programs at the start of their main loops, nothing in flight. -/
def initialSystem (dataBuffer : DataBuffer) (veryLastSeqNo : Int) : System where
  sender := some (initialSender dataBuffer veryLastSeqNo)
  receiver := initialReceiver
  dataChannel := []
  ackChannel := []
  sent := []

/-- A transfer: the options, a file that `readFileIntoBuffer` accepts, and the system at its
start. -/
structure Transfer where
  cfg : SenderConfig
  heap : Int → FreshPacket
  file : Bytes
  dataBuffer : DataBuffer
  veryLastSeqNo : Int
  accepted : readFileIntoBuffer cfg heap file = some (dataBuffer, veryLastSeqNo)
  /-- `initialize` refuses a window of zero. -/
  window_pos : 1 ≤ cfg.window

namespace Transfer

def start (tr : Transfer) : System := initialSystem tr.dataBuffer tr.veryLastSeqNo

/-- The packets of the file. -/
def packets (tr : Transfer) : List GoBackNMessageStruct := filePackets tr.cfg tr.heap tr.file

/-- The states a transfer reaches under a timer rule. -/
def Reachable (tr : Transfer) (rule : TimerRule) (sys : System) : Prop :=
  ∃ actions, Run (Step tr.cfg rule) tr.start actions sys

end Transfer

/-- The number of packets the receiver has accepted, and the number it expects next. -/
def Receiver.expected (r : Receiver) : Int := r.lastReceivedSeqNo + 1

/-- What holds in every state of a transfer of the packets. -/
structure SystemInv (cfg : SenderConfig) (packets : List GoBackNMessageStruct) (sys : System) :
    Prop where
  holds : ∀ s, sys.sender = some s → SenderHolds packets s
  lastAck : ∀ s, sys.sender = some s → s.lastAckSeqNo = max 0 (s.dataBuffer.minSeqNo - 1)
  next : ∀ s, sys.sender = some s → 0 ≤ s.nextSendSeqNo ∧ s.nextSendSeqNo ≤ packets.length ∧
    s.nextSendSeqNo ≤ s.lastAckSeqNo + cfg.window
  acknowledged : ∀ s, sys.sender = some s → s.dataBuffer.minSeqNo ≤ sys.receiver.expected
  sentWindow : ∀ s, sys.sender = some s → ∀ m ∈ sys.sent, m.seqNo < s.lastAckSeqNo + cfg.window
  sentPackets : ∀ m ∈ sys.sent, m ∈ packets
  dataWhole : ∀ m ∈ sys.dataChannel, m.size = m.data.length + headerSize
  dataSent : ∀ m ∈ sys.dataChannel, m.hasErrors = false → m ∈ sys.sent
  ackExpected : ∀ m ∈ sys.ackChannel, m.hasErrors = false →
    1 ≤ m.seqNoExpected ∧ m.seqNoExpected ≤ sys.receiver.expected
  expectedRange : 0 ≤ sys.receiver.expected ∧ sys.receiver.expected ≤ packets.length
  expectedSent : ∀ i, 0 ≤ i → i < sys.receiver.expected → ∃ m ∈ sys.sent, m.seqNo = i
  output : sys.receiver.output =
    (packets.take sys.receiver.expected.toNat).flatMap (·.data)
  goodBytes : sys.receiver.goodBytes = sys.receiver.output.length
  closed : sys.receiver.closed = true ↔ sys.receiver.expected = packets.length
  running : sys.receiver.running = true

theorem systemInv_start (tr : Transfer) : SystemInv tr.cfg tr.packets tr.start := by
  have hholds := senderHolds_initial tr.accepted
  obtain ⟨-, hmin, -⟩ := readFileIntoBuffer_some tr.cfg tr.heap tr.accepted
  have hpos := (packetList_filePackets tr.cfg tr.heap tr.file).nonempty
  constructor
  case holds =>
    rintro s ⟨⟩
    exact hholds
  case lastAck =>
    rintro s ⟨⟩
    change (0 : Int) = max 0 (tr.dataBuffer.minSeqNo - 1)
    omega
  case next =>
    rintro s ⟨⟩
    change (0 : Int) ≤ 0 ∧ (0 : Int) ≤ _ ∧ (0 : Int) ≤ 0 + _
    omega
  case acknowledged =>
    rintro s ⟨⟩
    change tr.dataBuffer.minSeqNo ≤ -1 + 1
    omega
  case expectedRange =>
    change (0 : Int) ≤ -1 + 1 ∧ (-1 : Int) + 1 ≤ _
    omega
  case expectedSent =>
    intro i h0 hlt
    change i < -1 + 1 at hlt
    omega
  case closed =>
    change false = true ↔ (-1 : Int) + 1 = (tr.packets.length : Int)
    have : 0 < tr.packets.length := hpos
    simp only [Bool.false_eq_true, false_iff]
    omega
  all_goals simp [Transfer.start, initialSystem, initialReceiver, Receiver.expected]

end ComputerNetworking.GoBackN
