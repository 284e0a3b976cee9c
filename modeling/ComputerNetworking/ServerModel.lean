import ComputerNetworking.Datagrams
import ComputerNetworking.HashTableModel

/-! The server of the distributed hash table (`server.c`).

A server reacts to one datagram at a time; `react` is one call of `handle_msg`, or the second half of
one that has forwarded a request and waits for the answer. Numbers are in host order, and their bytes
in a datagram in network order. `recvfrom` reports the true sender and cuts a datagram that is longer
than the buffer; what it leaves of a buffer that `realloc` has enlarged is the contents of fresh
memory, given by a parameter. A server whose assertion fails ends. -/

namespace ComputerNetworking.Dht

open Datagrams

/-! ### Addresses and numbers -/

structure SockaddrIn where
  ip : UInt32
  port : UInt16
  deriving DecidableEq, Repr

/-- `struct server_info`. -/
structure ServerInfo where
  address : SockaddrIn
  id : UInt16
  deriving DecidableEq, Repr

/-- `dht_node`. -/
structure DhtNode where
  self : ServerInfo
  prev : Option ServerInfo
  next : Option ServerInfo
  deriving DecidableEq, Repr

/-- The bytes of `htons(n)`. -/
def bytesOfUInt16 (n : UInt16) : Bytes :=
  [UInt8.ofNat (n.toNat / 256), UInt8.ofNat (n.toNat % 256)]

/-- `ntohs` of the two bytes at an offset. -/
def uint16At (msg : Bytes) (offset : Nat) : UInt16 :=
  UInt16.ofNat ((msg.getD offset 0).toNat * 256 + (msg.getD (offset + 1) 0).toNat)

/-- The bytes of `htonl(n)`. -/
def bytesOfUInt32 (n : UInt32) : Bytes :=
  bytesOfUInt16 (UInt16.ofNat (n.toNat / 65536)) ++ bytesOfUInt16 (UInt16.ofNat (n.toNat % 65536))

/-- `ntohl` of the four bytes at an offset. -/
def uint32At (msg : Bytes) (offset : Nat) : UInt32 :=
  UInt32.ofNat ((uint16At msg offset).toNat * 65536 + (uint16At msg (offset + 2)).toNat)

/-- A buffer of `len` bytes after `recvfrom` has put a datagram into it. -/
def recvInto (buffer : Nat → UInt8) (len : Nat) (payload : Bytes) : Bytes :=
  (List.range len).map fun i => payload.getD i (buffer i)

/-- A buffer from `calloc`. -/
def zeroed : Nat → UInt8 := fun _ => 0

/-! ### Ranges -/

def isKeyInRange (node : DhtNode) (key : Bytes) : Bool :=
  match node.next with
  | none => true
  | some next =>
      let endOffset := next.id - node.self.id
      let valOffset := stringHash key - node.self.id
      decide (valOffset < endOffset)

def isInRange (start stop val : ServerInfo) : Bool :=
  let endOffset := stop.id - start.id
  let valOffset := val.id - start.id
  decide (valOffset < endOffset)

/-! ### Internal messages -/

def internalMask : UInt8 := (1 : UInt8) <<< 7
def joinMask : UInt8 := 1
def notifyMask : UInt8 := (1 : UInt8) <<< 1
def stabilizeMask : UInt8 := (1 : UInt8) <<< 2

/-- `INTL_MSG_LEN`. -/
def intlMsgLen : Nat := 1 + 4 + 2 + 2

def fillIntlMsg (action : UInt8) (srv : ServerInfo) : Bytes :=
  (internalMask ||| action) :: bytesOfUInt32 srv.address.ip ++ bytesOfUInt16 srv.address.port ++
    bytesOfUInt16 srv.id

/-- `parse_msg`, behind its assertions. -/
def parseMsg (msg : Bytes) : ServerInfo where
  address := ⟨uint32At msg 1, uint16At msg 5⟩
  id := uint16At msg 7

section Internal

variable (node : DhtNode)

/-- A datagram that the server of the node sends. -/
def DhtNode.send (dest : ServerInfo) (msg : Bytes) : Datagram SockaddrIn Bytes :=
  ⟨node.self.address, dest.address, msg⟩

def notify (dest srv : ServerInfo) : Datagram SockaddrIn Bytes :=
  node.send dest (fillIntlMsg notifyMask srv)

def stabilize (dest : ServerInfo) : Datagram SockaddrIn Bytes :=
  node.send dest (fillIntlMsg stabilizeMask node.self)

/-- `set_next`: the node and what it sends. -/
def setNext (next : ServerInfo) : DhtNode × Datagram SockaddrIn Bytes :=
  ({ node with next := some next }, stabilize node next)

def handleJoin (msg : Bytes) : DhtNode × List (Datagram SockaddrIn Bytes) :=
  let srv := parseMsg msg
  match node.next with
  | none => ((setNext node srv).1, [notify node srv node.self, (setNext node srv).2])
  | some next =>
      if isInRange node.self next srv || next.id == node.self.id then
        ((setNext node srv).1, [notify node srv next, (setNext node srv).2])
      else (node, [node.send next msg])

def handleNotify (msg : Bytes) : DhtNode × List (Datagram SockaddrIn Bytes) :=
  let srv := parseMsg msg
  match node.next with
  | none => ((setNext node srv).1, [(setNext node srv).2])
  | some next =>
      if isInRange node.self next srv && srv.id != node.self.id then
        ((setNext node srv).1, [(setNext node srv).2])
      else (node, [])

def handleStabilize (msg : Bytes) : DhtNode × List (Datagram SockaddrIn Bytes) :=
  let src := parseMsg msg
  let prev := match node.prev with
    | none => src
    | some prev => if isInRange prev node.self src then src else prev
  ({ node with prev := some prev }, [notify node src prev])

/-- `handle_intl_msg`; `none` when no action bit is set. -/
def handleIntlMsg (payload : Bytes) : Option (DhtNode × List (Datagram SockaddrIn Bytes)) :=
  let msg := recvInto zeroed intlMsgLen payload
  let action := msg.getD 0 0
  if joinMask &&& action ≠ 0 then some (handleJoin node msg)
  else if notifyMask &&& action ≠ 0 then some (handleNotify node msg)
  else if stabilizeMask &&& action ≠ 0 then some (handleStabilize node msg)
  else none

end Internal

/-! ### External messages -/

def deleteMask : UInt8 := 1
def setMask : UInt8 := (1 : UInt8) <<< 1
def getMask : UInt8 := (1 : UInt8) <<< 2
def acknowledgmentMask : UInt8 := (1 : UInt8) <<< 3

/-- `EXT_HEADER_LEN`. -/
def extHeaderLen : Nat := 6

/-- The length that the header of an external message gives for the message. -/
def extMsgLen (msg : Bytes) : Nat :=
  extHeaderLen + (uint16At msg 2).toNat + (uint16At msg 4).toNat

/-- An external message. -/
def extMsg (action transactionId : UInt8) (key value : Bytes) : Bytes :=
  action :: transactionId :: bytesOfUInt16 (UInt16.ofNat key.length) ++
    bytesOfUInt16 (UInt16.ofNat value.length) ++ key ++ value

/-- The hash of the table. -/
def tableHash (key : Bytes) : Nat := (stringHash key).toNat

section Process

variable (hash : Bytes → Nat) (tbl : HashTable) (action : UInt8) (key value : Bytes)

/-- The deletion of a request: the table and what is left of the action. -/
def processDelete : HashTable × UInt8 :=
  if action &&& deleteMask ≠ 0 then
    let (tbl, status) := htDeleteKey hash tbl key
    (tbl, if status = -1 then action ^^^ deleteMask else action)
  else (tbl, action)

def processSet : HashTable × UInt8 :=
  if action &&& setMask ≠ 0 then
    let (tbl, status) := htSetValue hash tbl key value
    (tbl, if status = -1 then action ^^^ setMask else action)
  else (tbl, action)

/-- The lookup of a request: what is left of the action, and the key and the value to send. -/
def processGet : UInt8 × Bytes × Bytes :=
  if action &&& getMask ≠ 0 then
    match htGetValue hash tbl key with
    | (status, sendValue, _) =>
        if status = -1 then (action ^^^ getMask, [], []) else (action, key, sendValue.getD [])
  else (action, [], [])

/-- The processing of a request: the table and the response. The servers over UDP and over TCP share it up
to the hash of their tables. -/
def processRequest (transactionId : UInt8) : HashTable × Bytes :=
  let (tbl, action) := processDelete hash tbl action key
  let (tbl, action) := processSet hash tbl action key value
  let (action, sendKey, sendValue) := processGet hash tbl action key
  (tbl, extMsg (action ^^^ acknowledgmentMask) transactionId sendKey sendValue)

end Process

/-- A forwarded request for which the server waits for the answer. -/
structure Pending where
  msg : Bytes
  theirAddr : SockaddrIn
  deriving DecidableEq, Repr

/-- A running server. -/
structure Server where
  node : DhtNode
  ht : HashTable
  pending : Option Pending

section External

variable (heap : Nat → UInt8) (server : Server)

/-- `handle_ext_msg`, up to where it waits for an answer. -/
def handleExtMsg (d : Datagram SockaddrIn Bytes) : Outcome SockaddrIn Server Bytes :=
  let header := recvInto zeroed extHeaderLen d.payload
  if d.payload.length < extHeaderLen then .unread
  else
    let action := header.getD 0 0
    let recvKeyLen := (uint16At header 2).toNat
    let recvValueLen := (uint16At header 4).toNat
    let msg := recvInto (fun i => header.getD i (heap i)) (extMsgLen header) d.payload
    let recvKey := (msg.drop extHeaderLen).take recvKeyLen
    let recvValue := (msg.drop (extHeaderLen + recvKeyLen)).take recvValueLen
    if isKeyInRange server.node recvKey then
      let (ht, response) := processRequest tableHash server.ht action recvKey recvValue (msg.getD 1 0)
      .handled { server with ht := ht } [⟨server.node.self.address, d.src, response⟩]
    else
      match server.node.next with
      | none => .ended
      | some next => .handled { server with pending := some ⟨msg, d.src⟩ } [server.node.send next msg]

/-- The rest of `handle_ext_msg`, when the datagram it waits for arrives. -/
def relayResponse (request : Pending) (d : Datagram SockaddrIn Bytes) :
    Outcome SockaddrIn Server Bytes :=
  let response := recvInto zeroed extHeaderLen d.payload
  if response.getD 0 0 &&& internalMask ≠ 0 then .ended
  else if response.getD 1 0 ≠ request.msg.getD 1 0 then .ended
  else
    let response := recvInto (fun i => response.getD i (heap i)) (extMsgLen request.msg) d.payload
    .handled { server with pending := none }
      [⟨server.node.self.address, request.theirAddr, response⟩]

/-- What a server does with the next datagram. -/
def react (d : Datagram SockaddrIn Bytes) : Outcome SockaddrIn Server Bytes :=
  match server.pending with
  | some request => relayResponse heap server request d
  | none =>
      if internalMask &&& d.payload.getD 0 0 ≠ 0 then
        match handleIntlMsg server.node d.payload with
        | some (node, sends) => .handled { server with node := node } sends
        | none => .ended
      else handleExtMsg heap server d

end External

/-! ### Runs -/

abbrev System := Network SockaddrIn Server Bytes

/-- A server at the start of its main loop. -/
def startedServer (self : ServerInfo) : Server := ⟨⟨self, none, none⟩, htCreate, none⟩

/-- A server that creates a chord, alone. -/
def createChord (self : ServerInfo) : System :=
  ⟨Function.update (fun _ => none) self.address (some (startedServer self)), []⟩

/-- A further server is started and registers with another one. -/
def join (sys : System) (self : ServerInfo) (registration : SockaddrIn) : System :=
  ⟨Function.update sys.parties self.address (some (startedServer self)),
    sys.inFlight ++ [⟨self.address, registration, fillIntlMsg joinMask self⟩]⟩

/-- A client sends a datagram to a server. -/
def sendRequest (sys : System) (client server : SockaddrIn) (request : Bytes) : System :=
  { sys with inFlight := sys.inFlight ++ [⟨client, server, request⟩] }

/-- The nodes of the running servers. -/
def nodes (sys : System) (address : SockaddrIn) : Option DhtNode :=
  (sys.parties address).map (·.node)

/-- A server handles a datagram. -/
abbrev ServerStep : System → (Nat → UInt8) × Datagram SockaddrIn Bytes → System → Prop :=
  Deliver react

end ComputerNetworking.Dht
