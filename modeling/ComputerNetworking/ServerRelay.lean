import ComputerNetworking.ServerStore

/-! What a client reads from a reply that other servers have sent on.

A server that sends a reply on takes its length from the request. A longer reply is cut, and the client
reads fresh memory in its place; behind a shorter one there is fresh memory which the client does not
look at. -/

namespace ComputerNetworking.Dht

open Datagrams Transition

/-! ### The client -/

/-- The parts of a message; the lengths of the key and the value are those in its header. -/
structure Received where
  action : UInt8
  transactionId : UInt8
  key : Bytes
  value : Bytes
  deriving DecidableEq, Repr

/-- `recv_msg` of the client. -/
def recvMsg (heap : Nat → UInt8) (payload : Bytes) : Received :=
  let header := recvInto zeroed extHeaderLen payload
  let keyLen := (uint16At header 2).toNat
  let valLen := (uint16At header 4).toNat
  let msg := recvInto (fun i => header.getD i (heap i)) (extMsgLen header) payload
  { action := msg.getD 0 0
    transactionId := msg.getD 1 0
    key := (msg.drop extHeaderLen).take keyLen
    value := (msg.drop (extHeaderLen + keyLen)).take valLen }

theorem recvInto_append (buffer : Nat → UInt8) (payload rest : Bytes) :
    recvInto buffer payload.length (payload ++ rest) = payload := by
  refine List.ext_getElem (length_recvInto _ _ _) fun i _ hi => ?_
  have hi' : i < (payload ++ rest).length := by
    rw [List.length_append]
    omega
  simp [recvInto, List.getElem?_eq_getElem hi', List.getElem_append_left hi]

theorem recvInto_of_le (buffer : Nat → UInt8) {len : Nat} {payload : Bytes} (h : payload.length ≤ len) :
    ∃ rest, recvInto buffer len payload = payload ++ rest := by
  refine ⟨(recvInto buffer len payload).drop payload.length, ?_⟩
  have htake : (recvInto buffer len payload).take payload.length = payload := by
    refine List.ext_getElem (by simp [length_recvInto, h]) fun i _ hi => ?_
    simp [recvInto, hi]
  conv_lhs => rw [← List.take_append_drop payload.length (recvInto buffer len payload), htake]

theorem recvInto_of_ge {buffer : Nat → UInt8} {len : Nat} {payload : Bytes} (h : len ≤ payload.length) :
    recvInto buffer len payload = payload.take len := by
  refine List.ext_getElem (by simp [length_recvInto, h]) fun i hi hi' => ?_
  rw [length_recvInto] at hi
  have hlt : i < payload.length := by omega
  simp [recvInto, hlt]

theorem add_one_ne (byte : UInt8) : byte + 1 ≠ byte := by
  intro heq
  have htoNat := congrArg UInt8.toNat heq
  rw [UInt8.toNat_add] at htoNat
  change (byte.toNat + 1) % 256 = byte.toNat at htoNat
  omega

section Client

variable {action transactionId : UInt8} {key value : Bytes} (hkey : key.length < 65536)
  (hvalue : value.length < 65536)

/-- The header that the client looks at first, when at least the header has arrived. -/
theorem recvMsg_header (payload : Bytes) (heap : Nat → UInt8) : recvMsg heap payload =
    let msg := recvInto (fun i => (recvInto zeroed extHeaderLen payload).getD i (heap i))
      (extMsgLen payload) payload
    { action := msg.getD 0 0
      transactionId := msg.getD 1 0
      key := (msg.drop extHeaderLen).take (uint16At payload 2).toNat
      value := (msg.drop (extHeaderLen + (uint16At payload 2).toNat)).take
        (uint16At payload 4).toNat } := by
  have hkeyLen : uint16At (recvInto zeroed extHeaderLen payload) 2 = uint16At payload 2 := by
    rw [uint16At, recvInto_getD _ _ (by decide), recvInto_getD _ _ (by decide)]
    rfl
  have hvalueLen : uint16At (recvInto zeroed extHeaderLen payload) 4 = uint16At payload 4 := by
    rw [uint16At, recvInto_getD _ _ (by decide), recvInto_getD _ _ (by decide)]
    rfl
  rw [recvMsg, extMsgLen_header, hkeyLen, hvalueLen]

include hkey hvalue in
/-- A complete message is read as it was sent, whatever is behind it. -/
theorem recvMsg_of_complete (rest : Bytes) (heap : Nat → UInt8) :
    recvMsg heap (extMsg action transactionId key value ++ rest) =
      ⟨action, transactionId, key, value⟩ := by
  have hkeyLen : uint16At (extMsg action transactionId key value ++ rest) 2 =
      uint16At (extMsg action transactionId key value) 2 := rfl
  have hvalueLen : uint16At (extMsg action transactionId key value ++ rest) 4 =
      uint16At (extMsg action transactionId key value) 4 := rfl
  have hlength : extMsgLen (extMsg action transactionId key value ++ rest) =
      (extMsg action transactionId key value).length := by
    rw [extMsgLen, hkeyLen, hvalueLen]
    exact extMsgLen_extMsg _ _ hkey hvalue
  rw [recvMsg_header, hlength, recvInto_append, hkeyLen, hvalueLen]
  dsimp only
  rw [extMsg_key _ _ hkey, extMsg_value _ _ hkey hvalue]
  rfl

include hkey hvalue in
/-- In place of a part of the value that has not arrived, the client reads its memory. -/
theorem recvMsg_of_cut {len : Nat} (hlen : extHeaderLen + key.length ≤ len)
    (hcut : len < (extMsg action transactionId key value).length) :
    ∃ heap, recvMsg heap ((extMsg action transactionId key value).take len) ≠
      ⟨action, transactionId, key, value⟩ := by
  have hfull := length_extMsg action transactionId key value
  have hsix : extHeaderLen = 6 := rfl
  -- the header has arrived
  have hbyte (i : Nat) (hi : i < 6) : ((extMsg action transactionId key value).take len).getD i 0 =
      (extMsg action transactionId key value).getD i 0 := by
    rw [List.getD_eq_getElem?_getD, List.getElem?_take_of_lt (by omega), ← List.getD_eq_getElem?_getD]
  have hkeyLen : uint16At ((extMsg action transactionId key value).take len) 2 =
      UInt16.ofNat key.length := by
    rw [uint16At, hbyte 2 (by omega), hbyte 3 (by omega)]
    exact extMsg_keyLen _ _ _ _
  have hvalueLen : uint16At ((extMsg action transactionId key value).take len) 4 =
      UInt16.ofNat value.length := by
    rw [uint16At, hbyte 4 (by omega), hbyte 5 (by omega)]
    exact extMsg_valueLen _ _ _ _
  have hlast : len - (extHeaderLen + key.length) < value.length := by omega
  refine ⟨fun _ => value[len - (extHeaderLen + key.length)] + 1, fun heq => ?_⟩
  have hread := congrArg (fun m => m.value[len - (extHeaderLen + key.length)]?) heq
  rw [recvMsg_header, extMsgLen, hkeyLen, hvalueLen, toNat_ofNat_uint16 hkey,
    toNat_ofNat_uint16 hvalue] at hread
  simp only [List.getElem?_eq_getElem hlast] at hread
  rw [List.getElem?_take_of_lt hlast, List.getElem?_drop,
    show extHeaderLen + key.length + (len - (extHeaderLen + key.length)) = len by omega,
    List.getElem?_eq_getElem (by rw [length_recvInto]; omega)] at hread
  have hheader : (List.range extHeaderLen)[len]? = none :=
    List.getElem?_eq_none (by rw [List.length_range]; omega)
  have hrest : ((extMsg action transactionId key value).take len)[len]? = none :=
    List.getElem?_eq_none (by rw [List.length_take]; omega)
  simp only [recvInto, List.getElem_map, List.getElem_range, List.getD_eq_getElem?_getD,
    List.getElem?_map, hheader, hrest, Option.map_none, Option.getD_none, Option.some.injEq] at hread
  exact add_one_ne _ hread

end Client

/-! ### What a request finds -/

/-- What a request finds in the table is its own value, or what was there before. -/
theorem Request.found_serve (r : Request) {tbl : HashTable} (h : tbl.Wf tableHash) (value : Bytes) :
    r.found (r.serve tbl).1 = some value ↔ r.action &&& getMask ≠ 0 ∧
      (r.action &&& setMask ≠ 0 ∧ value = r.value ∨ r.action &&& setMask = 0 ∧
        r.action &&& deleteMask = 0 ∧ tbl.bindings tableHash r.key = some value) := by
  rw [Request.found, r.serve_table, (foldl_apply_spec h _).2, Request.calls, List.foldl_append]
  by_cases hget : r.action &&& getMask = 0
  · simp [hget]
  · by_cases hset : r.action &&& setMask = 0
    · by_cases hdelete : r.action &&& deleteMask = 0 <;> simp [hget, hset, hdelete, Call.onMap]
    · simp [hget, hset, Call.onMap, eq_comm]

/-- The request is processed where it is sent to, or its reply is no longer than the request. -/
def Uncut (sys : System) (sent : Sent) : Prop :=
  (∃ server, sys.parties sent.server = some server ∧
      isKeyInRange server.node sent.request.key = true) ∨
    sent.request.action &&& getMask = 0 ∨ sent.request.action &&& setMask ≠ 0 ∨
    sent.request.action &&& deleteMask ≠ 0 ∨
    ∀ a server value, sys.parties a = some server →
      isKeyInRange server.node sent.request.key = true →
      server.ht.bindings tableHash sent.request.key = some value →
      value.length ≤ sent.request.value.length

/-- The client reads from the reply what it would have read from the reply of the owner. -/
def Transparent (sys : System) (sent : Sent) : Prop :=
  ∀ (owner : ServerInfo) reply direct next next' heap heap', Owns (nodes sys) owner sent.request.key →
    Exchange sys sent reply next → Exchange sys { sent with server := owner.address } direct next' →
    recvMsg heap reply = recvMsg heap' direct

section Relay

variable {sys next : System} {ring : List ServerInfo} {sent : Sent} {reply : Bytes} {owner : ServerInfo}
  {server : Server}

/-- The reply is that of the owner, sent on by as many servers as are on the way. -/
theorem Exchange.from_owner (h : Serving sys ring) (hex : Exchange sys sent reply next)
    (hserver : sys.parties owner.address = some server)
    (hkey : isKeyInRange server.node sent.request.key = true) : ∃ k heap,
    reply = sentOn heap sent.request k (sent.request.serve server.ht).2 ∧
      (k = 0 ↔ ∃ first, sys.parties sent.server = some first ∧
        isKeyInRange first.node sent.request.key = true) := by
  obtain ⟨first, k, last, lastServer, heap, hfirst, -, hforwarded, hlast, -, rfl⟩ := hex.spec h
  have hnode {a : SockaddrIn} {s : Server} (ha : sys.parties a = some s) :
      nodes sys a = some s.node := by rw [nodes, ha, Option.map_some]
  obtain ⟨node, hlastNode, hlastKey⟩ := hforwarded.owns
  have heq := h.ring.owner_unique hlastNode (hnode hserver) hlastKey hkey
  rw [heq, hserver] at hlast
  cases hlast
  refine ⟨k, heap, rfl, ?_⟩
  have haddress := (h.ring.self_mem (hnode hfirst)).2
  cases hforwarded with
  | process hfirstNode hfirstKey =>
      rw [haddress, hnode hfirst] at hfirstNode
      cases hfirstNode
      exact ⟨fun _ => ⟨first, hfirst, hfirstKey⟩, fun _ => rfl⟩
  | forward hfirstNode hfirstKey =>
      rw [haddress, hnode hfirst] at hfirstNode
      cases hfirstNode
      refine ⟨fun hzero => absurd hzero (Nat.succ_ne_zero _), ?_⟩
      rintro ⟨first', hfirst', hkey'⟩
      rw [hfirst] at hfirst'
      cases hfirst'
      rw [hfirstKey] at hkey'
      cases hkey'

/-- The reply of a server, as a message. -/
theorem Serving.reply_eq (h : Serving sys ring) {a : SockaddrIn} (hserver : sys.parties a = some server)
    (r : Request) : ∃ action key value,
    (r.serve server.ht).2 = extMsg action r.transactionId key value ∧ key.length < 65536 ∧
      value.length < 65536 ∧ (r.found (r.serve server.ht).1 = none ∧ key = [] ∧ value = [] ∨
        r.found (r.serve server.ht).1 = some value ∧ key = r.key) := by
  obtain ⟨action, -, -, hreply⟩ := r.serve_reply server.ht
  rw [hreply]
  cases hfound : r.found (r.serve server.ht).1 with
  | none => exact ⟨_, [], [], rfl, by decide, by decide, .inl ⟨rfl, rfl, rfl⟩⟩
  | some value =>
      refine ⟨_, r.key, value, rfl, r.key_lt, ?_, .inr ⟨rfl, rfl⟩⟩
      unfold Request.found at hfound
      split at hfound
      · rw [r.serve_table, (foldl_apply_spec (h.wf _ server hserver) _).2] at hfound
        rcases r.onMap_value _ hfound with hold | rfl
        · exact h.short _ server _ value hserver hold
        · exact r.value_lt
      · cases hfound

/-- A reply that is no longer than the request, or that nobody sends on, is read as it was sent. -/
theorem recvMsg_sentOn {r : Request} {action : UInt8} {key value : Bytes} (hkey : key.length < 65536)
    (hvalue : value.length < 65536) {k : Nat}
    (hfits : k = 0 ∨ (extMsg action r.transactionId key value).length ≤ r.encode.length)
    (heap heap' : Nat → UInt8) :
    recvMsg heap (sentOn heap' r k (extMsg action r.transactionId key value)) =
      ⟨action, r.transactionId, key, value⟩ := by
  by_cases hk : k = 0
  · rw [sentOn, if_pos hk, ← List.append_nil (extMsg _ _ _ _)]
    exact recvMsg_of_complete hkey hvalue [] heap
  · obtain ⟨rest, hrest⟩ := recvInto_of_le heap' (hfits.resolve_left hk)
    rw [sentOn, if_neg hk, hrest]
    exact recvMsg_of_complete hkey hvalue rest heap

/-- A reply that is not cut is sent on by nobody, or no longer than the request. -/
theorem Uncut.fits (h : Serving sys ring) (huncut : Uncut sys sent) {a : SockaddrIn}
    (hserver : sys.parties a = some server) (hkey : isKeyInRange server.node sent.request.key = true)
    {k : Nat} (hk : k = 0 ↔ ∃ first, sys.parties sent.server = some first ∧
      isKeyInRange first.node sent.request.key = true) :
    k = 0 ∨ (sent.request.serve server.ht).2.length ≤ sent.request.encode.length := by
  obtain ⟨action, key, value, hreply, -, -, hfound⟩ := h.reply_eq hserver sent.request
  rw [hreply, length_extMsg, Request.encode, length_extMsg]
  rcases hfound with ⟨-, rfl, rfl⟩ | ⟨hfound, rfl⟩
  · right
    simp only [List.length_nil]
    omega
  · obtain ⟨hget, ⟨-, rfl⟩ | ⟨hset, hdelete, hold⟩⟩ :=
      (sent.request.found_serve (h.wf _ server hserver) value).mp hfound
    · exact .inr le_rfl
    · rcases huncut with howned | hget' | hset' | hdelete' | hvalue
      · exact .inl (hk.mpr howned)
      · exact absurd hget' hget
      · exact absurd hset hset'
      · exact absurd hdelete hdelete'
      · have := hvalue _ server value hserver hkey hold
        right
        omega

/-- A reply that is not cut is read as if the owner had been asked. -/
theorem Uncut.transparent (h : Serving sys ring) (huncut : Uncut sys sent) : Transparent sys sent := by
  intro owner reply direct next next' heap heap' howns hex hdirect
  obtain ⟨node, hnode, hkey⟩ := howns
  obtain ⟨server, hserver, rfl⟩ := nodes_eq_some hnode
  obtain ⟨k, heap₁, rfl, hk⟩ := hex.from_owner h hserver hkey
  obtain ⟨k', heap₂, rfl, hk'⟩ := hdirect.from_owner h hserver hkey
  obtain rfl : k' = 0 := hk'.mpr ⟨server, hserver, hkey⟩
  have hfits := huncut.fits h hserver hkey hk
  obtain ⟨action, key, value, hreply, hkeyLt, hvalueLt, -⟩ := h.reply_eq hserver sent.request
  rw [hreply] at hfits
  rw [hreply, recvMsg_sentOn hkeyLt hvalueLt hfits, recvMsg_sentOn hkeyLt hvalueLt (.inl rfl)]

/-- The client does not read the end of a reply that is cut. -/
theorem Uncut.of_transparent (h : Serving sys ring) (hclient : sys.parties sent.client = none)
    (hserver : ∃ server, sys.parties sent.server = some server) (htransparent : Transparent sys sent) :
    Uncut sys sent := by
  by_contra hcut
  unfold Uncut at hcut
  push Not at hcut
  obtain ⟨hnotOwned, hget, hset, hdelete, a, server, value, ha, hkey, hold, hlong⟩ := hcut
  have hnode : nodes sys a = some server.node := by rw [nodes, ha, Option.map_some]
  obtain rfl := (h.ring.self_mem hnode).2
  obtain ⟨reply, next, hex⟩ := h.exists_exchange sent hclient hserver
  obtain ⟨direct, next', hdirect⟩ := h.exists_exchange { sent with server := server.node.self.address }
    hclient ⟨server, ha⟩
  obtain ⟨k, heap₁, hreply, hk⟩ := hex.from_owner h ha hkey
  obtain ⟨k', heap₂, hreply', hk'⟩ := hdirect.from_owner h ha hkey
  obtain rfl : k' = 0 := hk'.mpr ⟨server, ha, hkey⟩
  obtain ⟨action, key, found, hserve, hkeyLt, hfoundLt, hfound⟩ := h.reply_eq ha sent.request
  rw [(sent.request.found_serve (h.wf _ server ha) value).mpr
    ⟨hget, .inr ⟨hset, hdelete, hold⟩⟩] at hfound
  obtain ⟨hvalue, rfl⟩ := hfound.resolve_left fun hnone => Option.some_ne_none _ hnone.1
  cases hvalue
  have hk0 : k ≠ 0 := by
    rintro rfl
    obtain ⟨first, hfirst, hfirstKey⟩ := hk.mp rfl
    exact hnotOwned first hfirst hfirstKey
  have hlength : sent.request.encode.length <
      (extMsg action sent.request.transactionId sent.request.key value).length := by
    rw [Request.encode, length_extMsg, length_extMsg]
    omega
  have hheader : extHeaderLen + sent.request.key.length ≤ sent.request.encode.length := by
    rw [Request.encode, length_extMsg]
    exact Nat.le_add_right _ _
  obtain ⟨heap, hread⟩ := recvMsg_of_cut hkeyLt hfoundLt hheader hlength
  apply hread
  have heq := htransparent server.node.self reply direct next next' heap heap ⟨_, hnode, hkey⟩ hex hdirect
  rw [hreply, hreply', hserve, recvMsg_sentOn hkeyLt hfoundLt (.inl rfl), sentOn, if_neg hk0,
    recvInto_of_ge hlength.le] at heq
  exact heq

end Relay

/-- **When forwarding is transparent.** The client reads from every reply to a request what it would
have read had it asked the owner of the key, if and only if it has asked the owner, or the request does
not look anything up but what it brings or deletes itself, or the stored value is no longer than the
value of the request. -/
theorem forwarding_transparent_iff (sys : System) (ring : List ServerInfo) (h : Serving sys ring)
    (sent : Sent) (hclient : sys.parties sent.client = none)
    (hserver : ∃ server, sys.parties sent.server = some server) :
    Transparent sys sent ↔ Uncut sys sent :=
  ⟨Uncut.of_transparent h hclient hserver, Uncut.transparent h⟩

/-- A client asks server 0 for the value of the key `k`. -/
def getRequest : Sent where
  client := ⟨0x7f000001, 5000⟩
  server := (testServer 0).address
  request := ⟨getMask, 1, [107], [], by decide, testKey_lt, by decide⟩

theorem twoServerSystem_serving : Serving twoServerSystem [testServer 0, testServer 1] :=
  serving_of_empty twoServerSystem_ring ⟨rfl, fun _ _ h => (twoServerSystem_parties h).1⟩
    fun _ _ h => (twoServerSystem_parties h).2

theorem forwarding_transparent_iff_twoServers : Transparent twoServerSystem getRequest := by
  refine (forwarding_transparent_iff twoServerSystem _ twoServerSystem_serving getRequest rfl
    ⟨_, rfl⟩).mpr (.inr (.inr (.inr (.inr fun a server value ha _ hvalue => ?_))))
  rw [(twoServerSystem_parties ha).2] at hvalue
  cases hvalue

/-- Server 1 stores the value `v` of the key `k`, and server 0 sends on only the header and the key of
its reply to a request with an empty value. -/
theorem relay_cuts_value :
    ∃ sys, Run ExchangeStep twoServerSystem [setRequest] sys ∧ ¬Transparent sys getRequest := by
  obtain ⟨reply, sys, hex⟩ := twoServerSystem_serving.exists_exchange setRequest rfl ⟨_, rfl⟩
  have hrun : Run ExchangeStep twoServerSystem [setRequest] sys := .single ⟨reply, hex⟩
  refine ⟨sys, hrun, fun htransparent => ?_⟩
  have hempty : Partitioned twoServerSystem fun _ => none := by
    intro a server ha
    funext key
    rw [(twoServerSystem_parties ha).2, ite_self]
    rfl
  obtain ⟨hserving, hnodes, hmap⟩ := partitioned_run hrun twoServerSystem_serving hempty
  have hnode (a : SockaddrIn) : nodes sys a = twoServers a := by
    rw [hnodes, twoServerSystem, nodes_toSystem]
  obtain ⟨asked, hasked, haskedNode⟩ := nodes_eq_some ((hnode (testServer 0).address).trans rfl)
  obtain ⟨owner, howner, hownerNode⟩ := nodes_eq_some ((hnode (testServer 1).address).trans rfl)
  have huncut := Uncut.of_transparent hserving ?_ ⟨asked, hasked⟩ htransparent
  · rcases huncut with ⟨server, hserver, hkey⟩ | hget | hset | hdelete | hvalue
    · rw [show sys.parties getRequest.server = some asked from hasked] at hserver
      cases hserver
      rw [haskedNode] at hkey
      exact absurd hkey (by decide)
    · exact absurd hget (by decide)
    · exact absurd hset (by decide)
    · exact absurd hdelete (by decide)
    · have hrange : isKeyInRange owner.node [107] = true := by
        rw [hownerNode]
        decide
      have hlong := hvalue _ owner [118] howner hrange (by rw [hmap _ owner howner]; exact if_pos hrange)
      exact absurd hlong (by decide)
  · have hnone := hnode getRequest.client
    rw [show twoServers getRequest.client = none from rfl] at hnone
    exact Option.map_eq_none_iff.mp hnone

end ComputerNetworking.Dht
