import ComputerNetworking.TcpServer

/-! Malformed datagrams: internal ones that are too short or have no action, and requests that are
shorter than their header says.

A buffer is longer than what is received into it. Behind the datagram an internal message has zeros and
a request what the memory held before; the server does not look at the length it has received. -/

namespace ComputerNetworking.Dht

open Datagrams Tcp

/-! ### Internal datagrams -/

/-- A datagram with the internal bit that is too short or has no action bit. -/
structure MalformedIntl (payload : Bytes) : Prop where
  internal : internalMask &&& payload.getD 0 0 ≠ 0
  malformed : payload.length < intlMsgLen ∨ joinMask &&& payload.getD 0 0 = 0 ∧
    notifyMask &&& payload.getD 0 0 = 0 ∧ stabilizeMask &&& payload.getD 0 0 = 0

section Internal

variable (node : DhtNode) (payload : Bytes)

/-- The server goes on, has sent nothing and keeps its neighbours. -/
def LeavesRing : Prop :=
  ∃ after, handleIntlMsg node payload = some (after, []) ∧ after.prev = node.prev ∧
    after.next = node.next

/-- A NOTIFY, without JOIN, of a server that is not to become the next one. -/
def IgnoredNotify : Prop :=
  joinMask &&& payload.getD 0 0 = 0 ∧ notifyMask &&& payload.getD 0 0 ≠ 0 ∧
    ∃ next, node.next = some next ∧
      ¬(isInRange node.self next (parseMsg payload) = true ∧ (parseMsg payload).id ≠ node.self.id)

/-- What is missing of an internal message is read as zeros. -/
theorem parseMsg_recvInto : parseMsg (recvInto zeroed intlMsgLen payload) = parseMsg payload := by
  have hget (i : Nat) (hi : i < intlMsgLen) :
      (recvInto zeroed intlMsgLen payload).getD i 0 = payload.getD i 0 := recvInto_getD zeroed payload hi 0
  have hport : uint16At (recvInto zeroed intlMsgLen payload) 5 = uint16At payload 5 := by
    rw [uint16At, uint16At, hget 5 (by decide), hget 6 (by decide)]
  have hid : uint16At (recvInto zeroed intlMsgLen payload) 7 = uint16At payload 7 := by
    rw [uint16At, uint16At, hget 7 (by decide), hget 8 (by decide)]
  have hip : uint32At (recvInto zeroed intlMsgLen payload) 1 = uint32At payload 1 := by
    simp only [uint32At, uint16At]
    rw [hget 1 (by decide), hget 2 (by decide), hget 3 (by decide), hget 4 (by decide)]
  rw [parseMsg, parseMsg, hport, hid, hip]

theorem handleJoin_sends (msg : Bytes) : (handleJoin node msg).2 ≠ [] := by
  unfold handleJoin
  cases node.next with
  | none => exact List.cons_ne_nil _ _
  | some next =>
      dsimp only
      split
      · exact List.cons_ne_nil _ _
      · exact List.cons_ne_nil _ _

/-- A NOTIFY is silent only if it changes nothing. -/
theorem handleNotify_silent_iff (msg : Bytes) : (handleNotify node msg).2 = [] ↔
    ∃ next, node.next = some next ∧
      ¬(isInRange node.self next (parseMsg msg) = true ∧ (parseMsg msg).id ≠ node.self.id) := by
  unfold handleNotify
  cases node.next with
  | none => simp
  | some next =>
      dsimp only
      split
      · rename_i hchange
        apply iff_of_false (List.cons_ne_nil _ _)
        intro hall
        obtain ⟨next', hnext', hno⟩ := hall
        cases hnext'
        exact hno (by simpa using hchange)
      · rename_i hkeep
        exact iff_of_true rfl ⟨next, rfl, by simpa using hkeep⟩

theorem handleNotify_of_silent {msg : Bytes} (h : (handleNotify node msg).2 = []) :
    handleNotify node msg = (node, []) := by
  obtain ⟨next, hnext, hno⟩ := (handleNotify_silent_iff node msg).mp h
  have hkeep : ¬(isInRange node.self next (parseMsg msg) && (parseMsg msg).id != node.self.id) = true := by
    simpa using hno
  unfold handleNotify
  rw [hnext]
  dsimp only
  rw [if_neg hkeep]

/-- JOIN and STABILIZE are always answered or passed on, and without an action the server ends. -/
theorem leavesRing_iff : LeavesRing node payload ↔ IgnoredNotify node payload := by
  have haction : (recvInto zeroed intlMsgLen payload).getD 0 0 = payload.getD 0 0 :=
    recvInto_getD zeroed payload (by decide) 0
  have hsilent := handleNotify_silent_iff node (recvInto zeroed intlMsgLen payload)
  rw [parseMsg_recvInto] at hsilent
  unfold LeavesRing IgnoredNotify handleIntlMsg
  dsimp only
  rw [haction, ← hsilent]
  split
  · rename_i hjoin
    apply iff_of_false _ fun hall => hjoin hall.1
    intro hleaves
    obtain ⟨after, heq, -⟩ := hleaves
    cases heq' : handleJoin node (recvInto zeroed intlMsgLen payload) with
    | mk node' sends =>
        rw [heq'] at heq
        cases heq
        exact handleJoin_sends node _ (congrArg Prod.snd heq')
  · rename_i hjoin
    rw [not_not] at hjoin
    split
    · rename_i hnotify
      constructor
      · intro hleaves
        obtain ⟨after, heq, -⟩ := hleaves
        exact ⟨hjoin, hnotify, congrArg Prod.snd (Option.some.inj heq)⟩
      · intro hignored
        exact ⟨node, congrArg some (handleNotify_of_silent node hignored.2.2), rfl, rfl⟩
    · rename_i hnotify
      apply iff_of_false _ fun hall => hnotify hall.2.1
      intro hleaves
      obtain ⟨after, heq, -⟩ := hleaves
      split at heq
      · exact absurd (congrArg Prod.snd (Option.some.inj heq)) (List.cons_ne_nil _ _)
      · cases heq

/-- **Malformed internal datagrams.** The ring is left alone exactly by a NOTIFY that the server would
ignore at full length too. -/
theorem malformed_intl_ignored_iff (_h : MalformedIntl payload) :
    LeavesRing node payload ↔ IgnoredNotify node payload :=
  leavesRing_iff node payload

end Internal

/-- A server on the loopback address. -/
def loopback (port id : UInt16) : ServerInfo := ⟨⟨2130706433, port⟩, id⟩

/-- A server of a ring of two. -/
def firstOfTwo : DhtNode := ⟨loopback 4000 10, some (loopback 4001 100), some (loopback 4001 100)⟩

theorem malformed_intl_ignored_iff_short : LeavesRing firstOfTwo [130] :=
  (malformed_intl_ignored_iff firstOfTwo [130] ⟨by decide, .inl (by decide)⟩).mpr
    ⟨by decide, by decide, loopback 4001 100, rfl, by decide⟩

/-- A JOIN without its last byte makes a server at port 0 the next one; without an action the server
ends. -/
theorem short_join_changes_next :
    MalformedIntl [129, 127, 0, 0, 1, 0, 0, 0] ∧
      (handleIntlMsg ⟨loopback 4000 10, none, none⟩ [129, 127, 0, 0, 1, 0, 0, 0]).map (·.1.next) =
        some (some (loopback 0 0)) ∧
      MalformedIntl [128] ∧ handleIntlMsg firstOfTwo [128] = none ∧
      ¬∀ node payload, MalformedIntl payload → LeavesRing node payload := by
  have hshort : MalformedIntl [128] := ⟨by decide, .inl (by decide)⟩
  refine ⟨⟨by decide, .inl (by decide)⟩, by decide, hshort, by decide, fun h => ?_⟩
  have hnotify := ((leavesRing_iff firstOfTwo [128]).mp (h firstOfTwo [128] hshort)).2.1
  exact hnotify (by decide)

/-! ### Received bytes -/

/-- The bytes that a buffer of `len` bytes may hold after `rest` has been received into it. -/
structure Completes (rest : Bytes) (len : Nat) (data : Bytes) : Prop where
  length_eq : data.length = len
  agrees : data.take rest.length = rest.take len

section Completes

variable {rest data data' : Bytes} {len : Nat}

theorem completes_recvInto (heap : Nat → UInt8) (rest : Bytes) (len : Nat) :
    Completes rest len (recvInto heap len rest) := by
  refine ⟨length_recvInto heap len rest, ?_⟩
  apply List.ext_getElem
  · rw [List.length_take, List.length_take, length_recvInto, min_comm]
  · intro i h h'
    rw [List.length_take] at h'
    simp [recvInto, show i < rest.length by omega]

theorem Completes.getD (h : Completes rest len data) {i : Nat} (hi : i < rest.length) (hlen : i < len) :
    rest.getD i 0 = data.getD i 0 := by
  have hagrees := congrArg (·.getD i 0) h.agrees
  simpa [List.getD_eq_getElem?_getD, List.getElem?_take, hi, hlen] using hagrees.symm

/-- Every completion is what some memory leaves. -/
theorem Completes.recvInto_eq (h : Completes rest len data) {heap : Nat → UInt8}
    (hheap : ∀ i < len, heap i = data.getD i 0) : recvInto heap len rest = data := by
  apply List.ext_getElem
  · rw [length_recvInto, h.length_eq]
  · intro i hi hi'
    have hlen : i < len := h.length_eq ▸ hi'
    rw [← List.getD_eq_getElem _ 0, ← List.getD_eq_getElem _ 0, recvInto_getD heap rest hlen, hheap i hlen]
    by_cases hrest : i < rest.length
    · rw [← h.getD hrest hlen, List.getD_eq_getElem _ _ hrest, List.getD_eq_getElem _ _ hrest]
    · rw [List.getD_eq_default _ _ (by omega)]

theorem completes_of_complete (h : len ≤ rest.length) (hdata : Completes rest len data) :
    data = rest.take len := by
  rw [← hdata.agrees, List.take_of_length_le (hdata.length_eq ▸ h)]

/-- There is one completion exactly if everything has been received. -/
theorem completes_unique_iff : (∀ data data', Completes rest len data → Completes rest len data' →
    data = data') ↔ len ≤ rest.length := by
  constructor
  · intro h
    by_contra hlt
    have heq := h _ _ (completes_recvInto (fun _ => 0) rest len) (completes_recvInto (fun _ => 1) rest len)
    have hget := congrArg (·.getD rest.length 0) heq
    rw [recvInto_getD _ _ (by omega), recvInto_getD _ _ (by omega), List.getD_eq_default _ _ le_rfl,
      List.getD_eq_default _ _ le_rfl] at hget
    exact absurd hget (by decide)
  · intro h data data' hdata hdata'
    rw [completes_of_complete h hdata, completes_of_complete h hdata']

/-- A part of a buffer. -/
theorem recvInto_slice (heap : Nat → UInt8) {start len total : Nat} (rest : Bytes)
    (h : start + len ≤ total) : ((recvInto heap total rest).drop start).take len =
      recvInto (fun i => heap (start + i)) len (rest.drop start) := by
  apply List.ext_getElem
  · simp [recvInto]
    omega
  · intro i hi hi'
    simp [recvInto, List.getD_eq_getElem?_getD]

end Completes

/-! ### Responses -/

section Response

variable {left left' transactionId : UInt8} {key key' : Bytes}

theorem clear_bit_acknowledgment (action mask : UInt8) (hmask : mask &&& acknowledgmentMask = 0) :
    (action ^^^ mask) &&& acknowledgmentMask = action &&& acknowledgmentMask := by
  apply UInt8.toNat_inj.mp
  rw [UInt8.toNat_and, UInt8.toNat_xor, UInt8.toNat_and, Nat.and_xor_distrib_right, ← UInt8.toNat_and mask,
    hmask]
  exact Nat.xor_zero _

theorem acknowledgment_flips (left : UInt8) :
    left &&& acknowledgmentMask ≠ (left ^^^ acknowledgmentMask) &&& acknowledgmentMask := by
  intro heq
  have hbit := congrArg (fun byte => byte.toNat.testBit 3) heq
  have hmask : Nat.testBit 8 3 = true := rfl
  simp [acknowledgmentMask, hmask] at hbit

theorem responseWith_of_clear (h : left &&& getMask = 0) (after : Option Bytes) :
    responseWith left transactionId key after =
      extMsg (left ^^^ acknowledgmentMask) transactionId [] [] :=
  if_neg (not_not.mpr h)

/-- A response acknowledges what has not been acknowledged, and the other way round. -/
theorem responseWith_action_ne (action : UInt8) (bound : Bool) (transactionId : UInt8) (key : Bytes)
    (after : Option Bytes) :
    (responseWith (leftOf action bound) transactionId key after).getD 0 0 ≠ action := by
  have hleft : leftOf action bound &&& acknowledgmentMask = action &&& acknowledgmentMask := by
    unfold leftOf
    split
    · exact clear_bit_acknowledgment action deleteMask rfl
    · rfl
  have hne (left : UInt8) (hkept : left &&& acknowledgmentMask = action &&& acknowledgmentMask) :
      left ^^^ acknowledgmentMask ≠ action := by
    intro heq
    rw [← heq] at hkept
    exact acknowledgment_flips left hkept
  unfold responseWith
  split
  · cases after with
    | none => exact hne _ ((clear_bit_acknowledgment _ getMask rfl).trans hleft)
    | some value => exact hne _ hleft
  · exact hne _ hleft

/-- The key of a message can be read back. -/
theorem extMsg_key_inj {action action' : UInt8} {value value' : Bytes} (hlength : key.length = key'.length)
    (h : extMsg action transactionId key value = extMsg action' transactionId key' value') :
    key = key' := by
  have hdrop : key ++ value = key' ++ value' := congrArg (·.drop extHeaderLen) h
  exact (List.append_inj hdrop hlength).1

/-- A response with a bound key tells the key. -/
theorem responseWith_key (hget : left &&& getMask ≠ 0) (hget' : left' &&& getMask ≠ 0)
    (hkey : key.length < 65536) (hlength : key'.length = key.length) {value : Bytes} {after' : Option Bytes}
    (h : responseWith left transactionId key (some value) =
      responseWith left' transactionId key' after') : key = key' := by
  unfold responseWith at h
  rw [if_pos hget, if_pos hget'] at h
  cases after' with
  | none =>
      have hsent : extMsg (left ^^^ acknowledgmentMask) transactionId key value =
        extMsg (left' ^^^ getMask ^^^ acknowledgmentMask) transactionId [] [] := h
      have hzero : key.length = 0 := by
        calc
          key.length = (UInt16.ofNat key.length).toNat := (toNat_ofNat_uint16 hkey).symm
          _ = (uint16At (extMsg (left ^^^ acknowledgmentMask) transactionId key value) 2).toNat := by
            rw [extMsg_keyLen]
          _ = (uint16At (extMsg (left' ^^^ getMask ^^^ acknowledgmentMask) transactionId [] []) 2).toNat := by
            rw [hsent]
          _ = 0 := by
            rw [extMsg_keyLen]
            rfl
      rw [List.length_eq_zero_iff.mp hzero, List.length_eq_zero_iff.mp (hlength.trans hzero)]
  | some value' => exact extMsg_key_inj hlength.symm h

end Response

/-! ### Two runs -/

section Runs

variable {map : Bytes → Option Bytes} {action transactionId : UInt8} {keys values : Set Bytes} {n : Nat}

/-- What a request does to a map: the map after it and the response. -/
def effect (map : Bytes → Option Bytes) (action transactionId : UInt8) (key value : Bytes) :
    (Bytes → Option Bytes) × Bytes :=
  (mapAfter action key value map,
    responseWith (leftOf action (map key).isSome) transactionId key (mapAfter action key value map key))

/-- Whatever the key and the value of a request are, it does the same. -/
def SameEffect (map : Bytes → Option Bytes) (action transactionId : UInt8) (keys values : Set Bytes) : Prop :=
  ∀ key ∈ keys, ∀ key' ∈ keys, ∀ value ∈ values, ∀ value' ∈ values,
    effect map action transactionId key value = effect map action transactionId key' value'

/-- When a request does the same whatever its key and its value are: it asks for nothing, there is no key,
it reads or deletes with one key or only keys that are not bound, or it sets with one value and one key, or
keys that are bound to nothing else than this value already and are not sent back. -/
def KeysAndValuesAgree (map : Bytes → Option Bytes) (action : UInt8) (keys values : Set Bytes) : Prop :=
  (action &&& deleteMask = 0 ∧ action &&& setMask = 0 ∧ action &&& getMask = 0) ∨ keys = ∅ ∨
    (action &&& setMask = 0 ∧ (keys.Subsingleton ∨ ∀ key ∈ keys, map key = none)) ∨
    (action &&& setMask ≠ 0 ∧ values.Subsingleton ∧ (keys.Subsingleton ∨
      action &&& getMask = 0 ∧ ∀ key ∈ keys, ∀ value ∈ values, map key = some value))

theorem mapAfter_set_self {key : Bytes} (hset : action &&& setMask ≠ 0) (value : Bytes) :
    mapAfter action key value map key = some value := by
  rw [mapAfter, if_pos hset]
  exact Function.update_self _ _ _

theorem mapAfter_delete_self {key : Bytes} (hset : action &&& setMask = 0)
    (hdelete : action &&& deleteMask ≠ 0) (value : Bytes) :
    mapAfter action key value map key = none := by
  rw [mapAfter, if_neg (not_not.mpr hset), if_pos hdelete]
  exact Function.update_self _ _ _

/-- The value of a request that does not set is not looked at. -/
theorem mapAfter_of_clear_set (hset : action &&& setMask = 0) (key value value' : Bytes) :
    mapAfter action key value map = mapAfter action key value' map := by
  rw [mapAfter, mapAfter, if_neg (not_not.mpr hset), if_neg (not_not.mpr hset)]

theorem mapAfter_of_unbound {key : Bytes} (hset : action &&& setMask = 0) (hkey : map key = none)
    (value : Bytes) : mapAfter action key value map = map := by
  rw [mapAfter, if_neg (not_not.mpr hset)]
  split
  · rw [← hkey, Function.update_eq_self]
  · rfl

theorem mapAfter_of_bound {key value : Bytes} (hset : action &&& setMask ≠ 0)
    (hkey : map key = some value) : mapAfter action key value map = map := by
  rw [mapAfter, if_pos hset]
  split
  · rw [Function.update_idem, ← hkey, Function.update_eq_self]
  · rw [← hkey, Function.update_eq_self]

theorem KeysAndValuesAgree.sameEffect (h : KeysAndValuesAgree map action keys values) :
    SameEffect map action transactionId keys values := by
  intro key hkey key' hkey' value hvalue value' hvalue'
  rcases h with ⟨hdelete, hset, hget⟩ | hempty | ⟨hset, hone | hunbound⟩ | ⟨hset, hvalues, hone | ⟨hget, hbound⟩⟩
  · have hleft (bound : Bool) : leftOf action bound = action := if_neg fun hall => hall.1 hdelete
    rw [effect, effect, hleft, hleft, responseWith_of_clear hget, responseWith_of_clear hget,
      mapAfter_of_clear hdelete hset, mapAfter_of_clear hdelete hset]
  · rw [hempty] at hkey
    exact absurd hkey (Set.notMem_empty key)
  · rw [hone hkey hkey', effect, effect, mapAfter_of_clear_set hset key' value value']
  · rw [effect, effect, mapAfter_of_unbound hset (hunbound key hkey),
      mapAfter_of_unbound hset (hunbound key' hkey'), hunbound key hkey, hunbound key' hkey']
    rfl
  · rw [hone hkey hkey', hvalues hvalue hvalue']
  · have hleft (bound : Bool) : leftOf action bound &&& getMask = 0 := (leftOf_get action bound).trans hget
    rw [hvalues hvalue hvalue', effect, effect, responseWith_of_clear (hleft _),
      responseWith_of_clear (hleft _), mapAfter_of_bound hset (hbound key hkey value' hvalue'),
      mapAfter_of_bound hset (hbound key' hkey' value' hvalue'), hbound key hkey value' hvalue',
      hbound key' hkey' value' hvalue']

/-- With two keys and a fixed value there is no deletion or lookup of a key that is bound. -/
theorem SameEffect.unbound (h : SameEffect map action transactionId keys values)
    (hlength : ∀ key ∈ keys, key.length = n) (hn : n < 65536) (hset : action &&& setMask = 0)
    (hbits : ¬(action &&& deleteMask = 0 ∧ action &&& getMask = 0)) {value : Bytes} (hvalue : value ∈ values)
    {key key' : Bytes} (hkey : key ∈ keys) (hkey' : key' ∈ keys) (hne : key' ≠ key) : map key = none := by
  have heq := h key hkey key' hkey' value hvalue value hvalue
  by_cases hdelete : action &&& deleteMask = 0
  · have hget : action &&& getMask ≠ 0 := fun hget => hbits ⟨hdelete, hget⟩
    cases hbound : map key with
    | none => rfl
    | some found =>
        have hresponse := congrArg Prod.snd heq
        simp only [effect, mapAfter_of_clear hdelete hset, hbound] at hresponse
        have hsame := responseWith_key ((leftOf_get _ _).trans_ne hget) ((leftOf_get _ _).trans_ne hget)
          ((hlength key hkey).trans_lt hn) ((hlength key' hkey').trans (hlength key hkey).symm) hresponse
        exact absurd hsame.symm hne
  · have hmap : mapAfter action key value map key = mapAfter action key' value map key :=
      congrFun (congrArg Prod.fst heq) key
    rw [mapAfter_delete_self hset hdelete, mapAfter_of_ne hne.symm] at hmap
    exact hmap.symm

/-- A set with two keys: both are bound to the value already, and there is no lookup. -/
theorem SameEffect.bound (h : SameEffect map action transactionId keys values)
    (hlength : ∀ key ∈ keys, key.length = n) (hn : n < 65536) (hset : action &&& setMask ≠ 0)
    {value : Bytes} (hvalue : value ∈ values) {key key' : Bytes} (hkey : key ∈ keys) (hkey' : key' ∈ keys)
    (hne : key' ≠ key) : action &&& getMask = 0 ∧ map key = some value := by
  have heq := h key hkey key' hkey' value hvalue value hvalue
  constructor
  · by_contra hget
    have hresponse := congrArg Prod.snd heq
    simp only [effect, mapAfter_set_self hset] at hresponse
    have hsame := responseWith_key ((leftOf_get _ _).trans_ne hget) ((leftOf_get _ _).trans_ne hget)
      ((hlength key hkey).trans_lt hn) ((hlength key' hkey').trans (hlength key hkey).symm) hresponse
    exact hne hsame.symm
  · have hmap : mapAfter action key value map key = mapAfter action key' value map key :=
      congrFun (congrArg Prod.fst heq) key
    rw [mapAfter_set_self hset, mapAfter_of_ne hne.symm] at hmap
    exact hmap.symm

theorem sameEffect_iff (hlength : ∀ key ∈ keys, key.length = n) (hn : n < 65536)
    (hvalues : values.Nonempty) :
    SameEffect map action transactionId keys values ↔ KeysAndValuesAgree map action keys values := by
  apply Iff.intro _ KeysAndValuesAgree.sameEffect
  intro h
  obtain ⟨value, hvalue⟩ := hvalues
  rcases keys.eq_empty_or_nonempty with hempty | ⟨key, hkey⟩
  · exact .inr (.inl hempty)
  have hother (hmany : ¬keys.Subsingleton) : ∀ key ∈ keys, ∃ key' ∈ keys, key' ≠ key :=
    fun key hkey => (Set.not_subsingleton_iff.mp hmany).exists_ne key
  by_cases hset : action &&& setMask = 0
  · by_cases hbits : action &&& deleteMask = 0 ∧ action &&& getMask = 0
    · exact .inl ⟨hbits.1, hset, hbits.2⟩
    refine .inr (.inr (.inl ⟨hset, ?_⟩))
    by_cases hone : keys.Subsingleton
    · exact .inl hone
    apply Or.inr
    intro key hkey
    obtain ⟨key', hkey', hne⟩ := hother hone key hkey
    exact h.unbound hlength hn hset hbits hvalue hkey hkey' hne
  · refine .inr (.inr (.inr ⟨hset, ?_, ?_⟩))
    · intro value hvalue value' hvalue'
      have hmap := congrFun (congrArg Prod.fst (h key hkey key hkey value hvalue value' hvalue')) key
      simp only [effect, mapAfter_set_self hset] at hmap
      exact Option.some.inj hmap
    · by_cases hone : keys.Subsingleton
      · exact .inl hone
      refine .inr ⟨?_, fun key hkey value hvalue => ?_⟩
      · obtain ⟨key', hkey', hne⟩ := hother hone key hkey
        exact (h.bound hlength hn hset hvalue hkey hkey' hne).1
      · obtain ⟨key', hkey', hne⟩ := hother hone key hkey
        exact (h.bound hlength hn hset hvalue hkey hkey' hne).2

end Runs

/-! ### Requests that are shorter than declared -/

/-- The lengths in the header of a datagram. -/
def declaredKeyLen (payload : Bytes) : Nat := (uint16At payload 2).toNat

def declaredValueLen (payload : Bytes) : Nat := (uint16At payload 4).toNat

/-- The key that `handle_ext_msg` copies out of its buffer. -/
def copiedKey (heap : Nat → UInt8) (payload : Bytes) : Bytes :=
  ((recvInto heap (extMsgLen payload) payload).drop extHeaderLen).take (declaredKeyLen payload)

def copiedValue (heap : Nat → UInt8) (payload : Bytes) : Bytes :=
  ((recvInto heap (extMsgLen payload) payload).drop (extHeaderLen + declaredKeyLen payload)).take
    (declaredValueLen payload)

/-- The keys that a server may take a datagram for. -/
def takenKeys (payload : Bytes) : Set Bytes :=
  {key | Completes (payload.drop extHeaderLen) (declaredKeyLen payload) key}

/-- The values that a server may take a datagram for. -/
def takenValues (payload : Bytes) : Set Bytes :=
  {value | Completes (payload.drop (extHeaderLen + declaredKeyLen payload)) (declaredValueLen payload) value}

theorem copiedKey_eq (heap : Nat → UInt8) (payload : Bytes) : copiedKey heap payload =
    recvInto (fun i => heap (extHeaderLen + i)) (declaredKeyLen payload) (payload.drop extHeaderLen) :=
  recvInto_slice heap payload (Nat.le_add_right _ _)

theorem copiedValue_eq (heap : Nat → UInt8) (payload : Bytes) : copiedValue heap payload =
    recvInto (fun i => heap (extHeaderLen + declaredKeyLen payload + i)) (declaredValueLen payload)
      (payload.drop (extHeaderLen + declaredKeyLen payload)) :=
  recvInto_slice heap payload le_rfl

theorem copiedKey_mem (heap : Nat → UInt8) (payload : Bytes) : copiedKey heap payload ∈ takenKeys payload :=
  copiedKey_eq heap payload ▸ completes_recvInto _ _ _

theorem copiedValue_mem (heap : Nat → UInt8) (payload : Bytes) :
    copiedValue heap payload ∈ takenValues payload :=
  copiedValue_eq heap payload ▸ completes_recvInto _ _ _

/-- Every key and value that the received bytes allow are copied for some contents of the heap. -/
theorem exists_heap {payload key value : Bytes} (hkey : key ∈ takenKeys payload)
    (hvalue : value ∈ takenValues payload) :
    ∃ heap, copiedKey heap payload = key ∧ copiedValue heap payload = value := by
  refine ⟨fun i => (key ++ value).getD (i - extHeaderLen) 0, ?_, ?_⟩
  · rw [copiedKey_eq]
    apply hkey.recvInto_eq
    intro i hi
    rw [Nat.add_sub_cancel_left, List.getD_append _ _ _ _ (hkey.length_eq ▸ hi)]
  · rw [copiedValue_eq]
    apply hvalue.recvInto_eq
    intro i _
    rw [Nat.add_assoc, Nat.add_sub_cancel_left, ← hkey.length_eq,
      List.getD_append_right _ _ _ _ (Nat.le_add_right _ _), Nat.add_sub_cancel_left]

section Datagram

variable (server : Server) (d : Datagram SockaddrIn Bytes)

/-- The processing of a datagram as a request with a key and a value. -/
def servedWith (key value : Bytes) : HashTable × Bytes :=
  processRequest tableHash server.ht (d.payload.getD 0 0) key value (d.payload.getD 1 0)

/-- A datagram with a whole header is processed, or forwarded as it stands in the buffer. -/
theorem handleExtMsg_eq (heap : Nat → UInt8) (hheader : extHeaderLen ≤ d.payload.length) :
    handleExtMsg heap server d =
      if isKeyInRange server.node (copiedKey heap d.payload) then
        .handled
          { server with ht := (servedWith server d (copiedKey heap d.payload) (copiedValue heap d.payload)).1 }
          [⟨server.node.self.address, d.src,
            (servedWith server d (copiedKey heap d.payload) (copiedValue heap d.payload)).2⟩]
      else
        match server.node.next with
        | none => .ended
        | some next =>
            .handled { server with pending := some ⟨recvInto heap (extMsgLen d.payload) d.payload, d.src⟩ }
              [server.node.send next (recvInto heap (extMsgLen d.payload) d.payload)] := by
  have hget (i : Nat) (hi : i < extHeaderLen) :
      (recvInto zeroed extHeaderLen d.payload).getD i 0 = d.payload.getD i 0 := recvHeader_getD d.payload hi
  have hkeyLen : uint16At (recvInto zeroed extHeaderLen d.payload) 2 = uint16At d.payload 2 := by
    rw [uint16At, uint16At, hget 2 (by decide), hget 3 (by decide)]
  have hvalueLen : uint16At (recvInto zeroed extHeaderLen d.payload) 4 = uint16At d.payload 4 := by
    rw [uint16At, uint16At, hget 4 (by decide), hget 5 (by decide)]
  -- behind the datagram the buffer is fresh memory: the header has been received whole
  have hbuffer : recvInto (fun i => (recvInto zeroed extHeaderLen d.payload).getD i (heap i))
      (extMsgLen d.payload) d.payload = recvInto heap (extMsgLen d.payload) d.payload := by
    apply recvInto_congr
    intro i hi _
    apply List.getD_eq_default
    rw [length_recvInto]
    exact hheader.trans hi
  have htransaction : (recvInto heap (extMsgLen d.payload) d.payload).getD 1 0 = d.payload.getD 1 0 := by
    have hlt : 1 < d.payload.length := Nat.lt_of_lt_of_le (by decide) hheader
    rw [recvInto_getD _ _ (by rw [extMsgLen, extHeaderLen]; omega), List.getD_eq_getElem _ _ hlt,
      List.getD_eq_getElem _ _ hlt]
  rw [handleExtMsg, if_neg (Nat.not_lt.mpr hheader)]
  dsimp only
  rw [extMsgLen_header, hbuffer, hkeyLen, hvalueLen, hget 0 (by decide), htransaction]
  rfl

/-- The owner branch of `handle_ext_msg`. -/
theorem handleExtMsg_owner (heap : Nat → UInt8) (hheader : extHeaderLen ≤ d.payload.length)
    (howner : isKeyInRange server.node (copiedKey heap d.payload) = true) :
    handleExtMsg heap server d =
      .handled
        { server with ht := (servedWith server d (copiedKey heap d.payload) (copiedValue heap d.payload)).1 }
        [⟨server.node.self.address, d.src,
          (servedWith server d (copiedKey heap d.payload) (copiedValue heap d.payload)).2⟩] := by
  rw [handleExtMsg_eq server d heap hheader, if_pos howner]

/-- With any two contents of the memory behind the datagram: if one of the runs takes the owner branch, then
both take it, leave the same map and send the same response. -/
def ReceivedOnly : Prop :=
  ∀ heap heap', isKeyInRange server.node (copiedKey heap d.payload) = true → ∃ after after' response,
    handleExtMsg heap server d =
      .handled { server with ht := after } [⟨server.node.self.address, d.src, response⟩] ∧
    handleExtMsg heap' server d =
      .handled { server with ht := after' } [⟨server.node.self.address, d.src, response⟩] ∧
    after.bindings tableHash = after'.bindings tableHash

/-- What is missing of the request does not matter. No key that it may have is the server's. Or all of them
are, and it asks for nothing; or it does not set, and its key has been received whole or may only be one that
is not bound; or it sets, and has been received whole, or sets the empty value without a GET for a key that
may only be one that has this value. -/
def MissingIgnored (payload : Bytes) : Prop :=
  let action := payload.getD 0 0
  let map := server.ht.bindings tableHash
  (∀ key ∈ takenKeys payload, isKeyInRange server.node key = false) ∨
    (∀ key ∈ takenKeys payload, isKeyInRange server.node key = true) ∧
      ((action &&& deleteMask = 0 ∧ action &&& setMask = 0 ∧ action &&& getMask = 0) ∨
        (action &&& setMask = 0 ∧ (extHeaderLen + declaredKeyLen payload ≤ payload.length ∨
          ∀ key ∈ takenKeys payload, map key = none)) ∨
        (action &&& setMask ≠ 0 ∧ (extMsgLen payload ≤ payload.length ∨ declaredValueLen payload = 0 ∧
          action &&& getMask = 0 ∧ ∀ key ∈ takenKeys payload, map key = some [])))

variable {server d}

/-- The response of the owner branch has another acknowledgement bit than the request. -/
theorem servedWith_action_ne (hwf : server.ht.Wf tableHash) (key value : Bytes) :
    (servedWith server d key value).2.getD 0 0 ≠ d.payload.getD 0 0 := by
  rw [servedWith, processRequest_response_eq hwf]
  exact responseWith_action_ne _ _ _ _ _

/-- A run that forwards the datagram does not do what the owner branch does. -/
theorem handleExtMsg_forward_ne (hheader : extHeaderLen ≤ d.payload.length) (hwf : server.ht.Wf tableHash)
    {heap : Nat → UInt8} (hforward : isKeyInRange server.node (copiedKey heap d.payload) = false)
    (after : HashTable) (key value : Bytes) :
    handleExtMsg heap server d ≠ .handled { server with ht := after }
      [⟨server.node.self.address, d.src, (servedWith server d key value).2⟩] := by
  rw [handleExtMsg_eq server d heap hheader, hforward, if_neg Bool.false_ne_true]
  intro heq
  split at heq
  · cases heq
  · simp only [DhtNode.send, Outcome.handled.injEq, List.cons.injEq, Datagram.mk.injEq] at heq
    have hsame := congrArg (·.getD 0 0) heq.2.1.2.2
    have hlt : 0 < d.payload.length := Nat.lt_of_lt_of_le (by decide) hheader
    rw [recvInto_getD _ _ (by rw [extMsgLen, extHeaderLen]; omega), List.getD_eq_getElem _ _ hlt,
      ← List.getD_eq_getElem _ 0] at hsame
    exact servedWith_action_ne hwf key value hsame.symm

theorem effect_eq_servedWith (hwf : server.ht.Wf tableHash) (key value : Bytes) :
    effect (server.ht.bindings tableHash) (d.payload.getD 0 0) (d.payload.getD 1 0) key value =
      ((servedWith server d key value).1.bindings tableHash, (servedWith server d key value).2) := by
  rw [effect, servedWith, (processRequest_table hwf _ _ _ _).2, processRequest_response_eq hwf]

/-- If one run takes the owner branch, all runs do. -/
theorem ReceivedOnly.owned (h : ReceivedOnly server d) (hheader : extHeaderLen ≤ d.payload.length)
    (hwf : server.ht.Wf tableHash) {owned key : Bytes} (howned : owned ∈ takenKeys d.payload)
    (hrange : isKeyInRange server.node owned = true) (hkey : key ∈ takenKeys d.payload) :
    isKeyInRange server.node key = true := by
  obtain ⟨heap, rfl, -⟩ := exists_heap howned (copiedValue_mem zeroed d.payload)
  obtain ⟨heap', rfl, -⟩ := exists_heap hkey (copiedValue_mem zeroed d.payload)
  by_contra hforward
  rw [Bool.not_eq_true] at hforward
  obtain ⟨after, after', response, hrun, hrun', -⟩ := h heap heap' hrange
  rw [handleExtMsg_owner server d heap hheader hrange] at hrun
  simp only [Outcome.handled.injEq, List.cons.injEq, Datagram.mk.injEq] at hrun
  rw [← hrun.2.1.2.2] at hrun'
  exact handleExtMsg_forward_ne hheader hwf hforward _ _ _ hrun'

theorem receivedOnly_iff_sameEffect (hheader : extHeaderLen ≤ d.payload.length)
    (hwf : server.ht.Wf tableHash) : ReceivedOnly server d ↔
      (∀ key ∈ takenKeys d.payload, isKeyInRange server.node key = false) ∨
        (∀ key ∈ takenKeys d.payload, isKeyInRange server.node key = true) ∧
          SameEffect (server.ht.bindings tableHash) (d.payload.getD 0 0) (d.payload.getD 1 0)
            (takenKeys d.payload) (takenValues d.payload) := by
  constructor
  · intro h
    by_cases hnone : ∀ key ∈ takenKeys d.payload, isKeyInRange server.node key = false
    · exact .inl hnone
    apply Or.inr
    simp only [not_forall, Bool.not_eq_false] at hnone
    obtain ⟨owned, howned, hrange⟩ := hnone
    have hall : ∀ key ∈ takenKeys d.payload, isKeyInRange server.node key = true :=
      fun key hkey => h.owned hheader hwf howned hrange hkey
    refine ⟨hall, ?_⟩
    intro key hkey key' hkey' value hvalue value' hvalue'
    obtain ⟨heap, rfl, rfl⟩ := exists_heap hkey hvalue
    obtain ⟨heap', rfl, rfl⟩ := exists_heap hkey' hvalue'
    obtain ⟨after, after', response, hrun, hrun', hmap⟩ := h heap heap' (hall _ hkey)
    rw [handleExtMsg_owner server d heap hheader (hall _ hkey)] at hrun
    rw [handleExtMsg_owner server d heap' hheader (hall _ hkey')] at hrun'
    simp only [Outcome.handled.injEq, Server.mk.injEq, List.cons.injEq, Datagram.mk.injEq] at hrun hrun'
    rw [effect_eq_servedWith hwf, effect_eq_servedWith hwf, hrun.1.2.1, hrun'.1.2.1, hmap, hrun.2.1.2.2,
      hrun'.2.1.2.2]
  · intro h heap heap' howner
    rcases h with hnone | ⟨hall, hsame⟩
    · rw [hnone _ (copiedKey_mem heap d.payload)] at howner
      exact absurd howner Bool.false_ne_true
    · have heq := hsame _ (copiedKey_mem heap d.payload) _ (copiedKey_mem heap' d.payload) _
        (copiedValue_mem heap d.payload) _ (copiedValue_mem heap' d.payload)
      rw [effect_eq_servedWith hwf, effect_eq_servedWith hwf, Prod.mk.injEq] at heq
      refine ⟨(servedWith server d (copiedKey heap d.payload) (copiedValue heap d.payload)).1,
        (servedWith server d (copiedKey heap' d.payload) (copiedValue heap' d.payload)).1,
        (servedWith server d (copiedKey heap d.payload) (copiedValue heap d.payload)).2,
        handleExtMsg_owner server d heap hheader howner, ?_, heq.1⟩
      rw [handleExtMsg_owner server d heap' hheader (hall _ (copiedKey_mem heap' d.payload)), heq.2]

theorem takenKeys_subsingleton_iff {payload : Bytes} (hheader : extHeaderLen ≤ payload.length) :
    (takenKeys payload).Subsingleton ↔ extHeaderLen + declaredKeyLen payload ≤ payload.length := by
  have hunique : (takenKeys payload).Subsingleton ↔
      declaredKeyLen payload ≤ (payload.drop extHeaderLen).length := by
    rw [← completes_unique_iff]
    exact ⟨fun h data data' hdata hdata' => h hdata hdata', fun h data hdata data' => h data data' hdata⟩
  rw [hunique, List.length_drop]
  omega

theorem takenValues_subsingleton_iff (payload : Bytes) : (takenValues payload).Subsingleton ↔
    declaredValueLen payload = 0 ∨ extMsgLen payload ≤ payload.length := by
  have hunique : (takenValues payload).Subsingleton ↔
      declaredValueLen payload ≤ (payload.drop (extHeaderLen + declaredKeyLen payload)).length := by
    rw [← completes_unique_iff]
    exact ⟨fun h data data' hdata hdata' => h hdata hdata', fun h data hdata data' => h data data' hdata⟩
  have hlen : extMsgLen payload = extHeaderLen + declaredKeyLen payload + declaredValueLen payload := rfl
  rw [hunique, List.length_drop, hlen]
  omega

/-- The only value that a server may take a datagram for, if there is only one. -/
theorem mem_takenValues_iff {payload : Bytes} (hone : (takenValues payload).Subsingleton) (value : Bytes) :
    value ∈ takenValues payload ↔
      value = (payload.drop (extHeaderLen + declaredKeyLen payload)).take (declaredValueLen payload) := by
  have hlen := completes_unique_iff.mp fun data data' hdata hdata' => hone hdata hdata'
  have hunique {data : Bytes} (hdata : data ∈ takenValues payload) := completes_of_complete hlen hdata
  apply Iff.intro hunique
  intro heq
  have hmem := completes_recvInto zeroed
    (payload.drop (extHeaderLen + declaredKeyLen payload)) (declaredValueLen payload)
  rw [heq, ← hunique hmem]
  exact hmem

/-- The keys and the values of a SET agree if it has been received whole, or sets the empty value for keys that
have it. -/
theorem setAgrees_iff {payload : Bytes} (hheader : extHeaderLen ≤ payload.length)
    (map : Bytes → Option Bytes) :
    ((takenValues payload).Subsingleton ∧ ((takenKeys payload).Subsingleton ∨
      payload.getD 0 0 &&& getMask = 0 ∧
        ∀ key ∈ takenKeys payload, ∀ value ∈ takenValues payload, map key = some value)) ↔
    (extMsgLen payload ≤ payload.length ∨ declaredValueLen payload = 0 ∧ payload.getD 0 0 &&& getMask = 0 ∧
      ∀ key ∈ takenKeys payload, map key = some []) := by
  have hlen : extMsgLen payload = extHeaderLen + declaredKeyLen payload + declaredValueLen payload := rfl
  rw [takenKeys_subsingleton_iff hheader]
  constructor
  · intro h
    obtain ⟨hvalues, hkeys⟩ := h
    rcases (takenValues_subsingleton_iff payload).mp hvalues with hempty | hwhole
    · rcases hkeys with hkey | ⟨hget, hbound⟩
      · apply Or.inl
        omega
      · refine .inr ⟨hempty, hget, fun key hkey => hbound key hkey [] ?_⟩
        rw [mem_takenValues_iff hvalues, hempty, List.take_zero]
    · exact .inl hwhole
  · intro h
    rcases h with hwhole | ⟨hempty, hget, hbound⟩
    · exact ⟨(takenValues_subsingleton_iff payload).mpr (.inr hwhole), .inl (by omega)⟩
    · have hvalues := (takenValues_subsingleton_iff payload).mpr (.inl hempty)
      refine ⟨hvalues, .inr ⟨hget, fun key hkey value hvalue => ?_⟩⟩
      rw [mem_takenValues_iff hvalues, hempty, List.take_zero] at hvalue
      rw [hvalue]
      exact hbound key hkey

theorem keysAndValuesAgree_iff (hheader : extHeaderLen ≤ d.payload.length) :
    ((∀ key ∈ takenKeys d.payload, isKeyInRange server.node key = false) ∨
      (∀ key ∈ takenKeys d.payload, isKeyInRange server.node key = true) ∧
        KeysAndValuesAgree (server.ht.bindings tableHash) (d.payload.getD 0 0) (takenKeys d.payload)
          (takenValues d.payload)) ↔ MissingIgnored server d.payload := by
  have hsome : takenKeys d.payload ≠ ∅ := Set.nonempty_iff_ne_empty.mp ⟨_, copiedKey_mem zeroed d.payload⟩
  apply or_congr_right
  apply and_congr_right
  intro _
  rw [KeysAndValuesAgree, or_iff_right hsome, takenKeys_subsingleton_iff hheader]
  apply or_congr_right
  apply or_congr_right
  apply and_congr_right
  intro _
  rw [← takenKeys_subsingleton_iff hheader]
  exact setAgrees_iff hheader _

/-- **Requests from received bytes.** The owner branch depends on nothing but the received bytes exactly
when what is missing of them does not matter to the request. -/
theorem ext_request_received_only_iff (hheader : extHeaderLen ≤ d.payload.length)
    (hwf : server.ht.Wf tableHash) : ReceivedOnly server d ↔ MissingIgnored server d.payload := by
  rw [receivedOnly_iff_sameEffect hheader hwf, ← keysAndValuesAgree_iff hheader]
  apply or_congr_right
  apply and_congr_right
  intro _
  exact sameEffect_iff (fun key hkey => hkey.length_eq) (UInt16.toNat_lt _) ⟨_, copiedValue_mem zeroed d.payload⟩

end Datagram

/-- A server that is alone. -/
def aloneServer : Server := startedServer (loopback 4000 10)

/-- A datagram from a client to it. -/
def fromClient (payload : Bytes) : Datagram SockaddrIn Bytes :=
  ⟨⟨2130706433, 5000⟩, aloneServer.node.self.address, payload⟩

/-- A GET whose key is missing finds nothing in an empty table. -/
theorem ext_request_received_only_iff_empty : ReceivedOnly aloneServer (fromClient [4, 0, 0, 1, 0, 0]) :=
  (ext_request_received_only_iff (by decide) (wf_htCreate tableHash)).mpr
    (.inr ⟨fun _ _ => rfl, .inr (.inl ⟨by decide, .inr fun _ _ => rfl⟩)⟩)

/-- A SET whose value is missing stores what the memory held before. -/
theorem missing_value_is_stored :
    (∀ byte, ∃ after sends, handleExtMsg (fun _ => byte) aloneServer (fromClient [2, 0, 0, 1, 0, 1, 97]) =
      .handled after sends ∧ after.ht.bindings tableHash [97] = some [byte]) ∧
    ¬∀ (server : Server) (d : Datagram SockaddrIn Bytes), internalMask &&& d.payload.getD 0 0 = 0 →
      extHeaderLen ≤ d.payload.length → server.ht.Wf tableHash → ReceivedOnly server d := by
  have hstored (byte : UInt8) : ∃ after sends,
      handleExtMsg (fun _ => byte) aloneServer (fromClient [2, 0, 0, 1, 0, 1, 97]) = .handled after sends ∧
        after.ht.bindings tableHash [97] = some [byte] := by
    refine ⟨_, _, handleExtMsg_owner aloneServer (fromClient [2, 0, 0, 1, 0, 1, 97]) (fun _ => byte)
      (by decide) rfl, ?_⟩
    have hmap := (processRequest_table (wf_htCreate tableHash) 2 [97] [byte] 0).2
    change (processRequest tableHash htCreate 2 [97] [byte] 0).1.bindings tableHash [97] = _
    rw [hmap]
    exact mapAfter_set_self (by decide) [byte]
  refine ⟨hstored, fun h => ?_⟩
  obtain ⟨after, after', response, hrun, hrun', hmap⟩ := h aloneServer
    (fromClient [2, 0, 0, 1, 0, 1, 97]) (by decide) (by decide) (wf_htCreate tableHash) (fun _ => 0)
    (fun _ => 1) rfl
  obtain ⟨zero, sends, hzero, hbound⟩ := hstored 0
  obtain ⟨one, sends', hone, hbound'⟩ := hstored 1
  rw [hrun] at hzero
  rw [hrun'] at hone
  cases hzero
  cases hone
  rw [hmap, hbound'] at hbound
  exact absurd hbound (by decide)

end ComputerNetworking.Dht
