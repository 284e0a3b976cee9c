import Mathlib.Data.Option.Basic
import ComputerNetworking.OrderedMap
import ComputerNetworking.ShortestPath
import ComputerNetworking.Transition

/-! The Go-Back-N protocol of the simulator: `userapps/GoBackNSender.cc` and `userapps/GoBackNReceiver.cc` of
ProtSim, with the events that drive them.

Times are `Costs`: `INFINITY` is the greatest, and a sum is rounded to no less than its first operand. A timer is
the time of its event while it is scheduled. Each channel delivers in order, and may lose messages or give them bit
errors. Sequence numbers and byte counters do not wrap. -/

namespace ComputerNetworking.Arq

open ShortestPath Transition

structure ARQData where
  seqNo : Int
  length : Int
  deriving DecidableEq

structure ARQAck where
  seqNoExpected : Int
  deriving DecidableEq

/-- The assertions of the sender, and the errors of the scheduler. -/
inductive Failure where
  | notNextSendTime
  | windowFull
  | bufferOrder
  | bufferOverflow
  | notTimerExpiration
  | oldAck
  | freeRange
  | notBuffered
  | expired
  | alreadyScheduled
  | inThePast
  deriving DecidableEq

/-- An entry of the packet buffer. The timeout is -1, here `none`, until it is set. -/
structure PacketInfo (T : Type) where
  packet : Option ARQData
  timeout : Option T
  deriving DecidableEq

/-- The parameters of the sender, with a window as `initialize` asserts it. The delays are not negative, as no time
is, and a finite time and a delay add up to a finite time. -/
structure SenderParams (T : Type) [Costs T] where
  packetSize : Int
  timeout : T
  interval : T
  window : Int
  window_pos : 0 < window
  finite : ∀ t : T, t < ⊤ → t + timeout < ⊤ ∧ t + interval < ⊤

/-- `disabled`, for a parameter `packetSize` that is a whole number. -/
def SenderParams.disabled {T : Type} [Costs T] (p : SenderParams T) : Bool := p.packetSize ≤ 0

structure SenderState (T : Type) where
  packetBuffer : Std.TreeMap Int (PacketInfo T)
  lastAckSeqNo : Int
  nextSendSeqNo : Int
  nextSendTime : T
  timerExpiration : T
  nextSendTimer : Option T
  expirationTimer : Option T
  sentBytes : Int
  ackBytes : Int

variable {T : Type} [Costs T]

def scheduleAt (now t : T) (timer : Option T) : Except Failure (Option T) :=
  if timer.isSome then .error .alreadyScheduled
  else if t < now then .error .inThePast
  else .ok (some t)

abbrev PacketBuffer (T : Type) := Std.TreeMap Int (PacketInfo T)

/-- `packetBuffer[seqNo]`, which makes the entry if there is none. -/
def PacketBuffer.info (buffer : PacketBuffer T) (seqNo : Int) : PacketInfo T :=
  buffer[seqNo]?.getD ⟨none, none⟩

namespace SenderState

def getDataPacket (p : SenderParams T) (seqNo : Int) (s : SenderState T) :
    Except Failure (ARQData × SenderState T) :=
  if s.packetBuffer.keys.head?.any fun first => seqNo < first then .error .bufferOrder
  else
    let info := PacketBuffer.info s.packetBuffer seqNo
    let buffer := s.packetBuffer.insert seqNo info
    if p.window < buffer.size then .error .bufferOverflow
    else
      match info.packet with
      | some data => .ok (data, { s with packetBuffer := buffer })
      | none =>
          let data : ARQData := ⟨seqNo, p.packetSize⟩
          .ok (data, { s with packetBuffer := buffer.insert seqNo { info with packet := some data } })

/-- The loop of `freeBuffers` over `count` sequence numbers from `i` on. -/
def eraseFrom : Nat → Int → PacketBuffer T → Except Failure (PacketBuffer T)
  | 0, _, buffer => .ok buffer
  | count + 1, i, buffer =>
      if i ∈ buffer then eraseFrom count (i + 1) (buffer.erase i) else .error .notBuffered

/-- `freeBuffers(first, last)`. -/
def freeBuffers (first last : Int) (buffer : PacketBuffer T) : Except Failure (PacketBuffer T) :=
  if first ≤ last then eraseFrom (last - first + 1).toNat first buffer else .error .freeRange

def resetTimers (s : SenderState T) : SenderState T :=
  { s with
    timerExpiration := ⊤
    packetBuffer := s.packetBuffer.map fun _ info => { info with timeout := some ⊤ }
    expirationTimer := none }

/-- Schedule the next send for now if none is scheduled, the window having been exhausted. -/
def wake (now : T) (s : SenderState T) : Except Failure (SenderState T) :=
  if s.nextSendTime = ⊤ then
    (scheduleAt now now s.nextSendTimer).map fun timer =>
      { s with nextSendTime := now, nextSendTimer := timer }
  else .ok s

/-- The expiration timer is set to an earlier time. -/
def expireBy (now nextTimer : T) (s : SenderState T) : Except Failure (SenderState T) :=
  if nextTimer < s.timerExpiration then
    (scheduleAt now nextTimer none).map fun timer =>
      { s with timerExpiration := nextTimer, expirationTimer := timer }
  else .ok s

/-- The next send is scheduled, unless the window is exhausted. -/
def scheduleSend (p : SenderParams T) (now : T) (s : SenderState T) : Except Failure (SenderState T) :=
  if s.nextSendSeqNo ≥ s.lastAckSeqNo + p.window then .ok { s with nextSendTime := ⊤ }
  else
    (scheduleAt now (now + p.interval) s.nextSendTimer).map fun timer =>
      { s with nextSendTime := now + p.interval, nextSendTimer := timer }

/-- `eTIMER0`: time for sending the next packet. -/
def handleTimer0 (p : SenderParams T) (now : T) (s : SenderState T) :
    Except Failure (ARQData × SenderState T) :=
  if now ≠ s.nextSendTime then .error .notNextSendTime
  else if ¬s.nextSendSeqNo < s.lastAckSeqNo + p.window then .error .windowFull
  else
    (s.getDataPacket p s.nextSendSeqNo).bind fun (data, s) =>
      let nextTimer := now + p.timeout
      let s := { s with
        sentBytes := s.sentBytes + p.packetSize.tdiv 8
        packetBuffer := s.packetBuffer.insert s.nextSendSeqNo
          { PacketBuffer.info s.packetBuffer s.nextSendSeqNo with timeout := some nextTimer }
        nextSendSeqNo := s.nextSendSeqNo + 1 }
      (s.expireBy now nextTimer).bind fun s => (s.scheduleSend p now).map fun s => (data, s)

/-- `eTIMER1`: a timeout. -/
def handleTimer1 (now : T) (s : SenderState T) : Except Failure (SenderState T) :=
  if now ≠ s.timerExpiration then .error .notTimerExpiration
  else (s.wake now).map fun s => resetTimers { s with nextSendSeqNo := s.lastAckSeqNo }

/-- After an acknowledgement, the expiration timer is that of the first packet that was sent and is not
acknowledged, if there is one. -/
def restartExpiration (now : T) (s : SenderState T) : Except Failure (SenderState T) :=
  if s.nextSendSeqNo > s.lastAckSeqNo then
    let info := PacketBuffer.info s.packetBuffer s.lastAckSeqNo
    match info.timeout with
    | none => .error .expired
    | some expiration =>
        if 0 < expiration ∧ now < expiration then
          (scheduleAt now expiration none).map fun timer =>
            { s with
              packetBuffer := s.packetBuffer.insert s.lastAckSeqNo info
              timerExpiration := expiration
              expirationTimer := timer }
        else .error .expired
  else
    .ok { s with
      timerExpiration := ⊤
      nextSendSeqNo := if s.nextSendSeqNo < s.lastAckSeqNo then s.lastAckSeqNo else s.nextSendSeqNo }

/-- `eNETWORK_PACKET`: an acknowledgement, which is a reject if it is for the last acknowledged packet. -/
def handleAck (p : SenderParams T) (now : T) (ack : ARQAck) (bitError : Bool) (s : SenderState T) :
    Except Failure (SenderState T) :=
  if bitError then .ok s
  else if ack.seqNoExpected = s.lastAckSeqNo then
    (s.wake now).map fun s => { s with nextSendSeqNo := s.lastAckSeqNo }
  else if ¬ack.seqNoExpected > s.lastAckSeqNo then .error .oldAck
  else
    (freeBuffers s.lastAckSeqNo (ack.seqNoExpected - 1) s.packetBuffer).bind fun buffer =>
      let s := { s with
        packetBuffer := buffer
        ackBytes := s.ackBytes + p.packetSize.tdiv 8 * (ack.seqNoExpected - s.lastAckSeqNo)
        lastAckSeqNo := ack.seqNoExpected
        expirationTimer := none }
      (s.restartExpiration now).bind fun s => s.wake now

end SenderState

structure ReceiverState where
  lastReceivedSeqNo : Int
  totalBytes : Int
  goodBytes : Int
  deriving DecidableEq

/-- The receiver gets a data packet: its next state and the acknowledgements it sends. -/
def ReceiverState.handleMessage (sendNack : Bool) (data : ARQData) (bitError : Bool) (r : ReceiverState) :
    ReceiverState × List ARQAck :=
  let r := { r with totalBytes := r.totalBytes + data.length.tdiv 8 }
  if bitError then (r, [])
  else if data.seqNo = r.lastReceivedSeqNo + 1 then
    ({ r with goodBytes := r.goodBytes + data.length.tdiv 8, lastReceivedSeqNo := data.seqNo },
      [⟨data.seqNo + 1⟩])
  else if data.seqNo > r.lastReceivedSeqNo + 1 then
    (r, if sendNack ∧ data.seqNo = r.lastReceivedSeqNo + 2 then [⟨r.lastReceivedSeqNo + 1⟩] else [])
  else (r, [])

/-- A sender and a receiver with the messages under way between them. -/
structure Connection (T : Type) where
  now : T
  sender : SenderState T
  receiver : ReceiverState
  data : List ARQData
  acks : List ARQAck

/-- After `initialize`: a sender that is disabled never schedules its first send. -/
def Connection.start (p : SenderParams T) : Connection T where
  now := 0
  sender :=
    { packetBuffer := ∅, lastAckSeqNo := 0, nextSendSeqNo := 0, nextSendTime := 0, timerExpiration := ⊤,
      nextSendTimer := if p.disabled then none else some 0, expirationTimer := none, sentBytes := 0,
      ackBytes := 0 }
  receiver := ⟨-1, 0, 0⟩
  data := []
  acks := []

/-- An event may happen at `t`: time does not go back, and no timer is overdue. -/
def Connection.Due (c : Connection T) (t : T) : Prop :=
  c.now ≤ t ∧ t < ⊤ ∧ (∀ x, c.sender.nextSendTimer = some x → t ≤ x) ∧
    ∀ x, c.sender.expirationTimer = some x → t ≤ x

/-- An event, with the message that is sent, that comes or that is lost. -/
inductive Event where
  | timer0 (data : ARQData)
  | timer1
  | data (data : ARQData) (bitError : Bool)
  | dataLost (data : ARQData)
  | ack (ack : ARQAck) (bitError : Bool)
  | ackLost (ack : ARQAck)
  deriving DecidableEq

/-- An event at a time; a timer is no longer scheduled when its event is handled. -/
inductive Step (p : SenderParams T) (sendNack : Bool) :
    Connection T → T × Event → Connection T → Prop where
  | timer0 {c : Connection T} {t : T} {data : ARQData} {s : SenderState T} :
      c.Due t → c.sender.nextSendTimer = some t →
      { c.sender with nextSendTimer := none }.handleTimer0 p t = .ok (data, s) →
      Step p sendNack c (t, .timer0 data) { c with now := t, sender := s, data := c.data ++ [data] }
  | timer1 {c : Connection T} {t : T} {s : SenderState T} :
      c.Due t → c.sender.expirationTimer = some t →
      { c.sender with expirationTimer := none }.handleTimer1 t = .ok s →
      Step p sendNack c (t, .timer1) { c with now := t, sender := s }
  | data {c : Connection T} {t : T} {d : ARQData} {rest : List ARQData} (bitError : Bool) :
      c.Due t → c.data = d :: rest →
      Step p sendNack c (t, .data d bitError)
        { c with
          now := t
          receiver := (c.receiver.handleMessage sendNack d bitError).1
          data := rest
          acks := c.acks ++ (c.receiver.handleMessage sendNack d bitError).2 }
  | dataLost {c : Connection T} {t : T} {d : ARQData} {rest : List ARQData} :
      c.Due t → c.data = d :: rest →
      Step p sendNack c (t, .dataLost d) { c with now := t, data := rest }
  | ack {c : Connection T} {t : T} {a : ARQAck} {rest : List ARQAck} {s : SenderState T} (bitError : Bool) :
      c.Due t → c.acks = a :: rest → c.sender.handleAck p t a bitError = .ok s →
      Step p sendNack c (t, .ack a bitError) { c with now := t, sender := s, acks := rest }
  | ackLost {c : Connection T} {t : T} {a : ARQAck} {rest : List ARQAck} :
      c.Due t → c.acks = a :: rest →
      Step p sendNack c (t, .ackLost a) { c with now := t, acks := rest }

/-! ### The steps as a function of the event -/

instance (c : Connection T) (t : T) : Decidable (c.Due t) :=
  have hall : ∀ timer : Option T, (∀ x, timer = some x → t ≤ x) ↔ timer.all (t ≤ ·) := by
    intro timer
    cases timer <;> simp
  decidable_of_iff
    (c.now ≤ t ∧ t < ⊤ ∧ c.sender.nextSendTimer.all (t ≤ ·) ∧ c.sender.expirationTimer.all (t ≤ ·))
    (by rw [Connection.Due, hall, hall])

/-- The connection after an event, if it is possible and no assertion fails. -/
def Connection.after (p : SenderParams T) (sendNack : Bool) (c : Connection T) (e : T × Event) :
    Option (Connection T) := do
  guard (c.Due e.1)
  match e.2 with
  | .timer0 data =>
      guard (c.sender.nextSendTimer = some e.1)
      let (data', s) ← ({ c.sender with nextSendTimer := none }.handleTimer0 p e.1).toOption
      guard (data' = data)
      some { c with now := e.1, sender := s, data := c.data ++ [data] }
  | .timer1 =>
      guard (c.sender.expirationTimer = some e.1)
      let s ← ({ c.sender with expirationTimer := none }.handleTimer1 e.1).toOption
      some { c with now := e.1, sender := s }
  | .data d bitError =>
      guard (c.data.head? = some d)
      some
        { c with
          now := e.1
          receiver := (c.receiver.handleMessage sendNack d bitError).1
          data := c.data.tail
          acks := c.acks ++ (c.receiver.handleMessage sendNack d bitError).2 }
  | .dataLost d =>
      guard (c.data.head? = some d)
      some { c with now := e.1, data := c.data.tail }
  | .ack a bitError =>
      guard (c.acks.head? = some a)
      let s ← (c.sender.handleAck p e.1 a bitError).toOption
      some { c with now := e.1, sender := s, acks := c.acks.tail }
  | .ackLost a =>
      guard (c.acks.head? = some a)
      some { c with now := e.1, acks := c.acks.tail }

end ComputerNetworking.Arq
