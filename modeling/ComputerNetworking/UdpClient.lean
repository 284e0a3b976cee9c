import ComputerNetworking.FilmClient
import ComputerNetworking.ServerMalformed

/-! The client of the server over UDP (`Hash Table/client.c`), and what the server makes of its request.

The client writes its arguments into a message, one after the other. The lengths go through variables of
type `uint16_t`: they are the header fields and the numbers of bytes that are copied. -/

namespace ComputerNetworking.UdpClient

open Dht Datagrams Tcp FilmClient

/-! ### Sending -/

/-- What a datagram can carry over IPv4; `sendto` fails for a longer message. -/
def maxPayload : Nat := 65507

/-- `send_msg`: the datagram, if one is sent, and `transaction_id`. -/
def sendMsg (action transactionId : UInt8) (key val : Bytes) : Option Bytes × UInt8 :=
  let keyLen := UInt16.ofNat (strlen key)
  let valLen := UInt16.ofNat (strlen val)
  let msgLen := 6 + keyLen.toNat + valLen.toNat
  let msg := writeAt zeroed 0 [zeroed 0 ||| action]
  let msg := writeAt msg 1 [transactionId]
  let msg := writeAt msg 2 (bytesOfUInt16 keyLen)
  let msg := writeAt msg 4 (bytesOfUInt16 valLen)
  let msg := writeAt msg 6 (key.take keyLen.toNat)
  let msg := writeAt msg (6 + keyLen.toNat) (val.take valLen.toNat)
  (if msgLen ≤ maxPayload then some ((List.range msgLen).map msg) else none, transactionId + 1)

/-- What is copied of a string whose length goes through a `uint16_t`. -/
def narrowed (str : Bytes) : Bytes := str.take (str.length % 65536)

theorem narrowed_length (str : Bytes) : (narrowed str).length = str.length % 65536 :=
  List.length_take_of_le (Nat.mod_le _ _)

theorem narrowed_lt (str : Bytes) : (narrowed str).length < 65536 := by
  rw [narrowed_length]
  exact Nat.mod_lt _ (by decide)

/-- A string is copied whole exactly if its length fits. -/
theorem narrowed_eq_iff (str : Bytes) : narrowed str = str ↔ str.length < 65536 := by
  constructor
  · intro h
    rw [← h]
    exact narrowed_lt str
  · intro h
    rw [narrowed, Nat.mod_eq_of_lt h, List.take_length]

section Copy

variable {mem str : Bytes}

theorem keyLen_eq (h : IsString mem str) : (UInt16.ofNat (strlen mem)).toNat = str.length % 65536 := by
  rw [h.strlen]
  rfl

/-- The bytes that `memcpy` takes of an argument. -/
theorem take_eq_narrowed (h : IsString mem str) :
    mem.take (UInt16.ofNat (strlen mem)).toNat = narrowed str := by
  rw [keyLen_eq h, narrowed]
  obtain ⟨-, rest, rfl⟩ := h
  exact List.take_append_of_le_length (Nat.mod_le _ _)

theorem uint16_narrowed (h : IsString mem str) :
    UInt16.ofNat (strlen mem) = UInt16.ofNat (narrowed str).length := by
  apply UInt16.toNat_inj.mp
  rw [keyLen_eq h, toNat_ofNat_uint16 (narrowed_lt str), narrowed_length]

end Copy

/-- The client sends a message of the protocol, with what is copied of its arguments. -/
theorem sendMsg_eq {keyMem valMem key val : Bytes} (hkey : IsString keyMem key)
    (hval : IsString valMem val) (action transactionId : UInt8) :
    (sendMsg action transactionId keyMem valMem).1 =
      if 6 + (narrowed key).length + (narrowed val).length ≤ maxPayload then
        some (extMsg action transactionId (narrowed key) (narrowed val))
      else none := by
  have hmem : writeAt (writeAt (writeAt (writeAt (writeAt (writeAt zeroed 0 [zeroed 0 ||| action]) 1
      [transactionId]) 2 (bytesOfUInt16 (UInt16.ofNat (narrowed key).length))) 4
        (bytesOfUInt16 (UInt16.ofNat (narrowed val).length))) 6 (narrowed key))
          (6 + (narrowed key).length) (narrowed val) =
      writeAt zeroed 0 (extMsg action transactionId (narrowed key) (narrowed val)) := by
    have hzero : zeroed 0 ||| action = action := UInt8.zero_or
    have hone := writeAt_append zeroed 0 [action] [transactionId]
    have htwo := writeAt_append zeroed 0 [action, transactionId]
      (bytesOfUInt16 (UInt16.ofNat (narrowed key).length))
    have hfour := writeAt_append zeroed 0
      (action :: transactionId :: bytesOfUInt16 (UInt16.ofNat (narrowed key).length))
      (bytesOfUInt16 (UInt16.ofNat (narrowed val).length))
    have hsix := writeAt_append zeroed 0
      (headerOf action transactionId (narrowed key) (narrowed val)) (narrowed key)
    have hlast := writeAt_append zeroed 0
      (headerOf action transactionId (narrowed key) (narrowed val) ++ narrowed key) (narrowed val)
    have hlength : 6 + (narrowed key).length =
        0 + (headerOf action transactionId (narrowed key) (narrowed val) ++ narrowed key).length := by
      rw [List.length_append, ← length_headerOf, headerLen, Nat.zero_add]
    rw [hzero, extMsg_eq_headerOf, ← List.append_assoc, ← hlast, ← hsix, ← hlength]
    exact congrArg (fun mem => writeAt (writeAt mem 6 _) _ _)
      ((congrArg (fun mem => writeAt (writeAt mem 2 _) 4 _) hone).trans
        ((congrArg (fun mem => writeAt mem 4 _) htwo).trans hfour))
  have hlength : (extMsg action transactionId (narrowed key) (narrowed val)).length =
      6 + (narrowed key).length + (narrowed val).length := length_extMsg _ _ _ _
  have hrange := range_map_writeAt zeroed (extMsg action transactionId (narrowed key) (narrowed val))
  rw [hlength] at hrange
  unfold sendMsg
  dsimp only
  rw [take_eq_narrowed hkey, take_eq_narrowed hval, keyLen_eq hkey, keyLen_eq hval, uint16_narrowed hkey,
    uint16_narrowed hval, ← narrowed_length, ← narrowed_length, hmem, hrange]

/-! ### Receiving -/

/-- What `handle_ext_msg` takes a datagram for, if it takes it. -/
def decodeExtMsg (heap : Nat → UInt8) (payload : Bytes) : Option Tcp.Received :=
  if payload.length < extHeaderLen then none
  else some ⟨payload.getD 0 0, payload.getD 1 0, copiedKey heap payload, copiedValue heap payload⟩

/-- The server processes what it has decoded, if the key is its own. -/
theorem handleExtMsg_decode {heap : Nat → UInt8} (server : Server) (d : Datagram SockaddrIn Bytes)
    {r : Tcp.Received} (hdecode : decodeExtMsg heap d.payload = some r)
    (howner : isKeyInRange server.node r.key = true) :
    handleExtMsg heap server d =
      let served := processRequest tableHash server.ht r.action r.key r.value r.transactionId
      .handled { server with ht := served.1 } [⟨server.node.self.address, d.src, served.2⟩] := by
  unfold decodeExtMsg at hdecode
  split at hdecode
  · cases hdecode
  · rename_i hheader
    cases hdecode
    exact handleExtMsg_owner server d heap (Nat.not_lt.mp hheader) howner

/-- A message with its true lengths is decoded to what it was made of. -/
theorem decodeExtMsg_extMsg (heap : Nat → UInt8) (action transactionId : UInt8) {key value : Bytes}
    (hkey : key.length < 65536) (hvalue : value.length < 65536) :
    decodeExtMsg heap (extMsg action transactionId key value) =
      some ⟨action, transactionId, key, value⟩ := by
  have hlength := extMsgLen_extMsg action transactionId hkey hvalue
  have hcomplete : ¬(extMsg action transactionId key value).length < extHeaderLen := by
    rw [length_extMsg]
    omega
  rw [decodeExtMsg, if_neg hcomplete, copiedKey, copiedValue, hlength, recvInto_self, declaredKeyLen,
    declaredValueLen, extMsg_key action transactionId hkey,
    extMsg_value action transactionId hkey hvalue]
  rfl

/-- **The server recovers what the client sends.** A request that the client sends is decoded to its
action, transaction id, key and value exactly if both lengths fit their fields. -/
theorem request_recovered_iff {keyMem valMem key val payload : Bytes} (hkey : IsString keyMem key)
    (hval : IsString valMem val) (action transactionId : UInt8) (heap : Nat → UInt8)
    (hsent : (sendMsg action transactionId keyMem valMem).1 = some payload) :
    decodeExtMsg heap payload = some ⟨action, transactionId, key, val⟩ ↔
      key.length < 65536 ∧ val.length < 65536 := by
  rw [sendMsg_eq hkey hval] at hsent
  split at hsent
  · cases hsent
    rw [decodeExtMsg_extMsg heap action transactionId (narrowed_lt key) (narrowed_lt val),
      ← narrowed_eq_iff key, ← narrowed_eq_iff val]
    simp
  · cases hsent

theorem request_recovered_iff_oneByte :
    decodeExtMsg zeroed (extMsg setMask 0 [97] [97]) = some ⟨setMask, 0, [97], [97]⟩ :=
  (request_recovered_iff oneByte_isString oneByte_isString setMask 0 zeroed (by decide)).mpr
    ⟨by decide, by decide⟩

/-- A key of 65536 bytes. -/
def longKey : Bytes := List.replicate 65536 97

theorem longKey_isString : IsString (longKey ++ [0]) longKey :=
  ⟨fun h => absurd (List.eq_of_mem_replicate h) (by decide), [], rfl⟩

/-- The server takes the request for a key of 65536 bytes for one for the empty key. -/
theorem long_key_is_lost :
    (sendMsg getMask 0 (longKey ++ [0]) [0]).1 = some (extMsg getMask 0 [] []) ∧
      decodeExtMsg zeroed (extMsg getMask 0 [] []) = some ⟨getMask, 0, [], []⟩ ∧
      ¬∀ keyMem valMem key val payload, IsString keyMem key → IsString valMem val →
        ∀ action transactionId heap, (sendMsg action transactionId keyMem valMem).1 = some payload →
          decodeExtMsg heap payload = some ⟨action, transactionId, key, val⟩ := by
  have hempty : IsString [0] [] := ⟨List.not_mem_nil, [], rfl⟩
  have hnarrowed : narrowed longKey = [] := by
    rw [narrowed, longKey, List.length_replicate]
    rfl
  have hsent : (sendMsg getMask 0 (longKey ++ [0]) [0]).1 = some (extMsg getMask 0 [] []) := by
    rw [sendMsg_eq longKey_isString hempty, hnarrowed]
    rfl
  have hdecode : decodeExtMsg zeroed (extMsg getMask 0 [] []) = some ⟨getMask, 0, [], []⟩ := by decide
  refine ⟨hsent, hdecode, fun h => ?_⟩
  have hlost := h _ _ _ _ _ longKey_isString hempty getMask 0 zeroed hsent
  rw [hdecode] at hlost
  have hkey := congrArg Tcp.Received.key (Option.some.inj hlost)
  have hlength := congrArg List.length hkey
  rw [longKey, List.length_replicate] at hlength
  cases hlength

end ComputerNetworking.UdpClient
