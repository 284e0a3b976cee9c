import ComputerNetworking.ServerRelay

/-! Requests and joins in turn.

A server that joins takes over a part of the keys of another one, and the tables stay where they are:
the code hands no key over. A key is out of its server's range exactly when a join has taken it over,
and it is found by requests as long as the server that it was set at still owns it. -/

namespace ComputerNetworking.Dht

open Clockwise Datagrams Transition

inductive ServiceAction where
  | request (sent : Sent)
  | join (self : ServerInfo) (registration : SockaddrIn)

/-- One request with its reply, or the join of one server with a new address and a new id, until no
datagram is in flight. -/
inductive ServiceStep : System → ServiceAction → System → Prop where
  | request {sys next : System} {sent : Sent} {reply : Bytes} (h : Exchange sys sent reply next) :
      ServiceStep sys (.request sent) next
  | join {sys next : System} {self : ServerInfo} {registration : SockaddrIn}
      {steps : List ((Nat → UInt8) × Datagram SockaddrIn Bytes)}
      (hfresh : nodes sys self.address = none)
      (hid : ∀ address node, nodes sys address = some node → node.self.id ≠ self.id)
      (hregistration : ∃ node, nodes sys registration = some node)
      (hrun : Run ServerStep (Dht.join sys self registration) steps next)
      (hquiet : next.inFlight = []) : ServiceStep sys (.join self registration) next

section Owners

variable {ns : SockaddrIn → Option DhtNode} {ring : List ServerInfo}

theorem WellFormedRing.fixedRing (h : WellFormedRing ns ring) : FixedRing ns ring := by
  cases h with
  | alone srv hring hnodes =>
      subst hnodes
      refine @FixedRing.alone _ _ ⟨srv, none, none⟩ hring rfl (Function.update_self _ _ _) ?_
      intro address other hother
      by_contra hne
      rw [Function.update_of_ne hne] at hother
      cases hother
  | ring hlen hring hprev => exact .ring hlen hring

/-- The range of a server are the keys that it owns in the ring. -/
theorem FixedRing.isKeyInRange_iff (h : FixedRing ns ring) {a : SockaddrIn} {node : DhtNode}
    (hnode : ns a = some node) (key : Bytes) : isKeyInRange node key = true ↔
      IsOwner ServerInfo.position ring.toFinset node.self (stringHash key).toFin := by
  cases h with
  | alone hring hnext hsingle hrunning =>
      obtain rfl := hrunning a node hnode
      rw [hsingle] at hnode
      cases hnode
      rw [hring]
      refine ⟨fun _ => ⟨by simp, fun z hz => ?_⟩, fun _ => isKeyInRange_of_next_none hnext key⟩
      rw [List.mem_toFinset, List.mem_singleton] at hz
      rw [hz]
  | ring hlen hring => exact (hring.linked hlen).isKeyInRange_iff hnode key

/-- When a server joins, a key keeps its owner or becomes the new server's. -/
theorem FixedRing.owner_insert {ns' : SockaddrIn → Option DhtNode} {ring' : List ServerInfo}
    {self : ServerInfo} (h : FixedRing ns ring) (h' : FixedRing ns' ring')
    (hring' : ∀ srv, srv ∈ ring' ↔ srv = self ∨ srv ∈ ring) {a : SockaddrIn} {old new : DhtNode}
    (hold : ns a = some old) (hnew : ns' a = some new) (hself : new.self = old.self) {key : Bytes}
    (hkey : isKeyInRange old key = true) :
    isKeyInRange new key = true ∨ Owns ns' self key := by
  obtain ⟨owner, node, hnode, hrange⟩ := h'.exists_owner key
  obtain ⟨hmem, haddress⟩ := h'.self_mem hnode
  have hown := (h'.isKeyInRange_iff hnode key).mp hrange
  rcases (hring' _).mp hmem with heq | hmem
  · exact .inr ⟨node, by rw [← heq, haddress, hnode], hrange⟩
  · left
    obtain ⟨hoffset, hle⟩ := (h.isKeyInRange_iff hold key).mp hkey
    have hsame := hle node.self (List.mem_toFinset.mpr hmem)
    rw [h'.isKeyInRange_iff hnew key, hself]
    refine ⟨List.mem_toFinset.mpr ((hring' _).mpr (.inr (List.mem_toFinset.mp hoffset))), ?_⟩
    exact fun z hz => hsame.trans (hown.2 z hz)

end Owners

/-! ### Joins between requests -/

/-- What holds between the steps of the service. -/
structure Established (sys : System) (members : List ServerInfo) : Prop
    extends Serving sys members where
  wellFormed : WellFormedRing (nodes sys) members

section Service

variable {sys next : System} {ring : List ServerInfo} {self : ServerInfo} {registration : SockaddrIn}

theorem established_createChord (creator : ServerInfo) : Established (createChord creator) [creator] := by
  have hwf := wellFormedRing_createChord creator
  refine ⟨serving_of_empty hwf.fixedRing (quiet_createChord creator) fun a server hserver => ?_, hwf⟩
  change Function.update (fun _ => none) creator.address (some (startedServer creator)) a = _ at hserver
  rw [Function.update_apply] at hserver
  split at hserver
  · cases hserver
    rfl
  · cases hserver

theorem tables_cases (sys : System) (a : SockaddrIn) : tables sys a = htCreate ∨
    ∃ server, sys.parties a = some server ∧ tables sys a = server.ht := by
  unfold tables
  cases sys.parties a with
  | none => exact .inl rfl
  | some server => exact .inr ⟨server, rfl, rfl⟩

/-- The system after a join has the same tables and a ring with the new server. -/
def Joined (sys : System) (ring : List ServerInfo) (self : ServerInfo) (t : System) : Prop :=
  ∃ c : Chord, (c.inFlight = [] ∧ ∃ ring', WellFormedRing c.parties ring' ∧
    ∀ srv, srv ∈ ring' ↔ srv = self ∨ srv ∈ ring) ∧ t = c.toSystem (tables sys)

theorem Established.join_inevitable (h : Established sys ring) (hfresh : nodes sys self.address = none)
    (hid : ∀ address node, nodes sys address = some node → node.self.id ≠ self.id)
    (hregistration : ∃ node, nodes sys registration = some node) :
    Inevitably ServerStep (Joined sys ring self) (Dht.join sys self registration) := by
  obtain ⟨node, hnode⟩ := hregistration
  obtain ⟨hmem, rfl⟩ := h.ring.self_mem hnode
  have hids : ∀ srv ∈ ring, srv.id ≠ self.id := by
    intro srv hsrv
    obtain ⟨other, hother, rfl⟩ := h.ring.running hsrv
    exact hid _ other hother
  rw [h.quiet.join_eq hfresh]
  exact Chord.inevitably (tables sys) (join_wellFormed h.wellFormed hids hfresh hmem ⟨rfl, _, rfl⟩)

theorem Joined.quiet {t : System} (h : Joined sys ring self t) : t.inFlight = [] := by
  obtain ⟨c, ⟨hflight, -⟩, rfl⟩ := h
  rw [Chord.toSystem, Network.map, hflight, List.map_nil]

theorem Established.exists_join (h : Established sys ring) (hfresh : nodes sys self.address = none)
    (hid : ∀ address node, nodes sys address = some node → node.self.id ≠ self.id)
    (hregistration : ∃ node, nodes sys registration = some node) :
    ∃ next, ServiceStep sys (.join self registration) next := by
  obtain ⟨steps, t, hrun, hjoined⟩ := (h.join_inevitable hfresh hid hregistration).reaches
  exact ⟨t, .join hfresh hid hregistration hrun hjoined.quiet⟩

/-- What a join does: the new server is in the ring, and every server keeps its table. -/
theorem Established.join (h : Established sys ring)
    (hstep : ServiceStep sys (.join self registration) next) :
    ∃ ring', Established next ring' ∧ (∀ srv, srv ∈ ring' ↔ srv = self ∨ srv ∈ ring) ∧
      nodes sys self.address = none ∧
      ∀ a server, next.parties a = some server → server.ht = tables sys a := by
  cases hstep with
  | join hfresh hid hregistration hrun hquiet =>
  have hterminal (t : System) (ht : t.inFlight = []) : Terminal ServerStep t :=
    terminal_of_parties_none react fun d hd => by simp [ht] at hd
  obtain ⟨c, ⟨-, ring', hring', hmem'⟩, rfl⟩ := (h.join_inevitable hfresh hid hregistration).of_run_terminal
    (fun t ht => hterminal t ht.quiet) hrun (hterminal next hquiet)
  have htables (a : SockaddrIn) (server : Server)
      (hserver : (c.toSystem (tables sys)).parties a = some server) :
      server.ht = tables sys a ∧ server.pending = none := by
    obtain ⟨node, -, rfl⟩ := Option.map_eq_some_iff.mp hserver
    exact ⟨rfl, rfl⟩
  have hwf : WellFormedRing (nodes (c.toSystem (tables sys))) ring' := by rwa [nodes_toSystem]
  refine ⟨ring', ⟨⟨⟨hquiet, fun a server ha => (htables a server ha).2⟩, hwf.fixedRing, ?_, ?_⟩, hwf⟩,
    hmem', hfresh, fun a server ha => (htables a server ha).1⟩
  · intro a server ha
    rw [(htables a server ha).1]
    rcases tables_cases sys a with heq | ⟨old, hold, heq⟩ <;> rw [heq]
    · exact wf_htCreate tableHash
    · exact h.wf a old hold
  · intro a server key value ha hvalue
    rw [(htables a server ha).1] at hvalue
    rcases tables_cases sys a with heq | ⟨old, hold, heq⟩ <;> rw [heq] at hvalue
    · cases hvalue
    · exact h.short a old key value hold hvalue

/-- A server that runs before a join runs after it, with the same table. -/
theorem Established.join_old (h : Established sys ring)
    (hstep : ServiceStep sys (.join self registration) next) {a : SockaddrIn} {old : Server}
    (hold : sys.parties a = some old) :
    ∃ new, next.parties a = some new ∧ new.node.self = old.node.self ∧ new.ht = old.ht := by
  obtain ⟨ring', h', hring', -, htables⟩ := h.join hstep
  have hnode : nodes sys a = some old.node := by rw [nodes, hold, Option.map_some]
  obtain ⟨hmem, rfl⟩ := h.ring.self_mem hnode
  obtain ⟨node, hnode', hself⟩ := h'.ring.running ((hring' _).mpr (.inr hmem))
  obtain ⟨new, hnew, rfl⟩ := nodes_eq_some hnode'
  refine ⟨new, hnew, hself, ?_⟩
  rw [htables _ new hnew, tables, hold]
  rfl

theorem Established.step (h : Established sys ring) {action : ServiceAction}
    (hstep : ServiceStep sys action next) : ∃ ring', Established next ring' := by
  cases action with
  | request sent =>
      cases hstep with
      | request hex =>
          exact ⟨ring, hex.serving h.toServing, (hex.frame h.toServing).1 ▸ h.wellFormed⟩
  | join self registration =>
      obtain ⟨ring', h', -⟩ := h.join hstep
      exact ⟨ring', h'⟩

/-! ### Keys that are taken over -/

/-- In the run a server has joined which took the key over from the server at `a`, where it was
stored. -/
def TakenOver (start : System) (actions : List ServiceAction) (sys : System) (a : SockaddrIn)
    (key : Bytes) : Prop :=
  ∃ before after self registration s s' old,
    actions = before ++ .join self registration :: after ∧ Run ServiceStep start before s ∧
      ServiceStep s (.join self registration) s' ∧ Run ServiceStep s' after sys ∧
      s.parties a = some old ∧ old.ht.bindings tableHash key ≠ none ∧
      isKeyInRange old.node key = true ∧ Owns (nodes s') self key

theorem TakenOver.cons {start mid : System} {action : ServiceAction} {actions : List ServiceAction}
    {a : SockaddrIn} {key : Bytes} (hstep : ServiceStep start action mid)
    (h : TakenOver mid actions sys a key) : TakenOver start (action :: actions) sys a key := by
  obtain ⟨before, after, self, registration, s, s', old, rfl, hbefore, hrest⟩ := h
  exact ⟨action :: before, after, self, registration, s, s', old, rfl, .cons hstep hbefore, hrest⟩

/-- A key that is stored out of range after a step was so before, or the step has taken it over. -/
theorem Established.out_of_range (h : Established sys ring) {action : ServiceAction}
    (hstep : ServiceStep sys action next) {a : SockaddrIn} {new : Server} {key : Bytes}
    (hnew : next.parties a = some new) (hstored : new.ht.bindings tableHash key ≠ none)
    (hout : isKeyInRange new.node key = false) :
    ∃ old, sys.parties a = some old ∧ old.ht.bindings tableHash key ≠ none ∧
      (isKeyInRange old.node key = false ∨
        ∃ self registration, action = .join self registration ∧ isKeyInRange old.node key = true ∧
          Owns (nodes next) self key) := by
  cases action with
  | request sent =>
      cases hstep with
      | request hex =>
      obtain ⟨old, hold, hnode, -, -, hbindings⟩ := (hex.frame h.toServing).2 a new hnew
      rw [hnode] at hout
      refine ⟨old, hold, ?_, .inl hout⟩
      rw [hbindings] at hstored
      split at hstored
      · rename_i hrange
        have hne : key ≠ sent.request.key := by
          rintro rfl
          rw [hrange] at hout
          cases hout
        rwa [sent.request.onMap_of_ne _ hne] at hstored
      · exact hstored
  | join self registration =>
      obtain ⟨ring', h', hring', hfresh, htables⟩ := h.join hstep
      rw [htables a new hnew] at hstored
      rcases tables_cases sys a with heq | ⟨old, hold, heq⟩ <;> rw [heq] at hstored
      · exact absurd rfl hstored
      · refine ⟨old, hold, hstored, ?_⟩
        cases hrange : isKeyInRange old.node key with
        | false => exact .inl rfl
        | true =>
            obtain ⟨new', hnew', hself, -⟩ := h.join_old hstep hold
            rw [hnew] at hnew'
            cases hnew'
            have hnode : nodes sys a = some old.node := by rw [nodes, hold, Option.map_some]
            have hnode' : nodes next a = some new.node := by rw [nodes, hnew, Option.map_some]
            refine .inr ⟨self, registration, rfl, rfl, ?_⟩
            refine (h.ring.owner_insert h'.ring hring' hnode hnode' hself hrange).resolve_left ?_
            rw [hout]
            exact Bool.false_ne_true

theorem Established.takenOver (h : Established sys ring) {actions : List ServiceAction}
    (hrun : Run ServiceStep sys actions next) {a : SockaddrIn} {new : Server} {key : Bytes}
    (hnew : next.parties a = some new) (hstored : new.ht.bindings tableHash key ≠ none)
    (hout : isKeyInRange new.node key = false) :
    TakenOver sys actions next a key ∨ ∃ old, sys.parties a = some old ∧
      old.ht.bindings tableHash key ≠ none ∧ isKeyInRange old.node key = false := by
  induction hrun generalizing ring with
  | nil s => exact .inr ⟨new, hnew, hstored, hout⟩
  | cons hstep htail ih =>
      obtain ⟨ring', h'⟩ := h.step hstep
      rcases ih h' hnew with htaken | ⟨mid, hmid, hmidStored, hmidOut⟩
      · exact .inl (htaken.cons hstep)
      · obtain ⟨old, hold, holdStored, hrange | ⟨self, registration, rfl, hrange, howns⟩⟩ :=
          h.out_of_range hstep hmid hmidStored hmidOut
        · exact .inr ⟨old, hold, holdStored, hrange⟩
        · exact .inl ⟨[], _, self, registration, _, _, old, rfl, .nil _, hstep, htail, hold, holdStored,
            hrange, howns⟩

/-! ### Keys that are found -/

/-- The request neither sets nor deletes its key. -/
def Request.ReadOnly (r : Request) : Prop :=
  r.action &&& setMask = 0 ∧ r.action &&& deleteMask = 0

theorem Request.ReadOnly.calls_eq {r : Request} (h : r.ReadOnly) : r.calls = [] := by
  rw [calls, h.1, h.2]
  rfl

/-- A server keeps the value of a key as long as no request sets or deletes the key. -/
theorem Established.keeps (h : Established sys ring) {actions : List ServiceAction}
    (hrun : Run ServiceStep sys actions next) {a : SockaddrIn} {old : Server} {key value : Bytes}
    (hold : sys.parties a = some old) (hvalue : old.ht.bindings tableHash key = some value)
    (hread : ∀ sent, .request sent ∈ actions → sent.request.key = key → sent.request.ReadOnly) :
    ∃ ring' new, Established next ring' ∧ next.parties a = some new ∧
      new.ht.bindings tableHash key = some value := by
  induction hrun generalizing ring old with
  | nil s => exact ⟨ring, old, h, hold, hvalue⟩
  | @cons s mid _ action _ hstep _ ih =>
      obtain ⟨ring', h'⟩ := h.step hstep
      have hmid : ∃ server, mid.parties a = some server ∧
          server.ht.bindings tableHash key = some value := by
        cases hstep with
        | @request _ sent _ hex =>
            obtain ⟨hnodes, hframe⟩ := hex.frame h.toServing
            have hnode : nodes s a = some old.node := by rw [nodes, hold, Option.map_some]
            obtain ⟨server, hserver, -⟩ := nodes_eq_some (hnodes ▸ hnode)
            obtain ⟨old', hold', -, -, -, hbindings⟩ := hframe a server hserver
            rw [hold] at hold'
            cases hold'
            refine ⟨server, hserver, ?_⟩
            rw [hbindings]
            split
            · by_cases hkey : key = sent.request.key
              · have hsent := hread sent List.mem_cons_self hkey.symm
                rw [hsent.calls_eq]
                exact hvalue
              · rw [sent.request.onMap_of_ne _ hkey, hvalue]
            · exact hvalue
        | join hfresh hid hregistration hrun hquiet =>
            obtain ⟨server, hserver, -, hht⟩ := h.join_old (.join hfresh hid hregistration hrun hquiet) hold
            exact ⟨server, hserver, hht ▸ hvalue⟩
      obtain ⟨server, hserver, hserverValue⟩ := hmid
      exact ih h' hserver hserverValue fun sent hsent => hread sent (List.mem_cons_of_mem _ hsent)

/-- A GET of the key that is sent to any server finds it, and the client reads the value unless it is
cut on its way. -/
def Found (sys : System) (key value : Bytes) : Prop :=
  ∀ get : Sent, get.request.action = getMask → get.request.key = key →
    (∃ server, sys.parties get.server = some server) →
    Inevitably ServerStep (fun t => ∃ src reply, t.inFlight = [⟨src, get.client, reply⟩])
        (sendRequest sys get.client get.server get.request.encode) ∧
      ∀ reply next, Exchange sys get reply next → reply.getD 0 0 &&& getMask ≠ 0 ∧
        (Uncut sys get → ∀ heap, (recvMsg heap reply).value = value)

theorem sentOn_getD_zero (heap : Nat → UInt8) (r : Request) (k : Nat) {reply : Bytes}
    (h : 0 < reply.length) : (sentOn heap r k reply).getD 0 0 = reply.getD 0 0 := by
  unfold sentOn
  split
  · rfl
  · have hlength : 0 < r.encode.length := by
      have hheader : 0 < extHeaderLen := by decide
      rw [Request.encode, length_extMsg]
      omega
    rw [recvInto_getD _ _ hlength, List.getD_eq_getElem _ _ h, List.getD_eq_getElem _ _ h]

/-- A key is found if the server that it was set at owns it. -/
theorem Serving.found (h : Serving sys ring) {owner : ServerInfo} {server : Server} {key value : Bytes}
    (hserver : sys.parties owner.address = some server) (hkey : isKeyInRange server.node key = true)
    (hvalue : server.ht.bindings tableHash key = some value) : Found sys key value := by
  rintro get hget rfl ⟨first, hfirst⟩
  refine ⟨?_, fun reply next hex => ?_⟩
  · obtain ⟨k, owner, -, -, hserved⟩ := h.served get hfirst
    refine hserved.mono fun t ht => ?_
    obtain ⟨last, heap, -, -, hflight⟩ := ht
    exact ⟨_, _, hflight⟩
  · obtain ⟨k, heap, rfl, hk⟩ := hex.from_owner h hserver hkey
    have hfound : get.request.found (get.request.serve server.ht).1 = some value :=
      (get.request.found_serve (h.wf _ server hserver) value).mpr
        ⟨by rw [hget]; decide, .inr ⟨by rw [hget]; decide, by rw [hget]; decide, hvalue⟩⟩
    obtain ⟨action, haction, hbit, hreply⟩ := get.request.serve_reply server.ht
    rw [hfound] at hbit hreply
    have hheader := (isReply_serve get.request server.ht).header
    refine ⟨?_, fun huncut heap' => ?_⟩
    · rw [sentOn_getD_zero _ _ _ (Nat.lt_of_lt_of_le (by decide) hheader), hreply]
      change (action ^^^ acknowledgmentMask) &&& getMask ≠ 0
      rw [(acknowledge _ haction).2]
      exact hbit.mpr rfl
    · have hfits := huncut.fits h hserver hkey hk
      rw [hreply] at hfits ⊢
      have hshort := h.short _ server _ value hserver hvalue
      exact congrArg Received.value (recvMsg_sentOn get.request.key_lt hshort hfits heap' heap)

theorem Established.run (h : Established sys ring) {actions : List ServiceAction}
    (hrun : Run ServiceStep sys actions next) : ∃ ring', Established next ring' := by
  have hinv (s : System) (a : ServiceAction) (t : System) (hs : ∃ ring, Established s ring)
      (hstep : ServiceStep s a t) : ∃ ring, Established t ring := by
    obtain ⟨ring, h⟩ := hs
    exact h.step hstep
  exact hrun.invariant hinv ⟨ring, h⟩

theorem Request.onMap_set {r : Request} (hset : r.action &&& setMask ≠ 0)
    (map : Bytes → Option Bytes) : r.calls.foldl Call.onMap map r.key = some r.value := by
  rw [calls, List.foldl_append, if_pos hset]
  exact Function.update_self _ _ _

/-- The server that owns a key has the value after a request that sets it. -/
theorem Serving.set (h : Serving sys ring) {sent : Sent} {reply : Bytes}
    (hex : Exchange sys sent reply next) (hset : sent.request.action &&& setMask ≠ 0)
    {owner : ServerInfo} (howns : Owns (nodes next) owner sent.request.key) :
    ∃ server, next.parties owner.address = some server ∧
      server.ht.bindings tableHash sent.request.key = some sent.request.value := by
  obtain ⟨node, hnode, hkey⟩ := howns
  obtain ⟨server, hserver, rfl⟩ := nodes_eq_some hnode
  obtain ⟨old, -, hsame, -, -, hbindings⟩ := (hex.frame h).2 _ server hserver
  refine ⟨server, hserver, ?_⟩
  rw [hbindings, if_pos (hsame ▸ hkey)]
  exact Request.onMap_set hset _

end Service

/-! ### A key is set, then a server joins -/

/-- In a ring of two servers each one is the next of the other. -/
theorem WellFormedRing.next_of_two {ns : SockaddrIn → Option DhtNode} {ring : List ServerInfo}
    (h : WellFormedRing ns ring) {x j : ServerInfo} (hne : x ≠ j)
    (hmem : ∀ srv, srv ∈ ring ↔ srv = j ∨ srv = x) {node : DhtNode} (hnode : ns x.address = some node) :
    node.self = x ∧ node.next = some j := by
  cases h with
  | alone srv hring hnodes =>
      have hj := (hmem j).mpr (.inl rfl)
      have hx := (hmem x).mpr (.inr rfl)
      rw [hring, List.mem_singleton] at hj hx
      exact absurd (hx.trans hj.symm) hne
  | ring hlen hring hprev =>
      have hlinked := hring.linked hlen
      have hself := hlinked.node_eq (List.mem_toFinset.mpr ((hmem x).mpr (.inr rfl))) hnode
      obtain ⟨y, hy, hisNext⟩ := hlinked.next _ node hnode
      rw [hself] at hisNext
      rcases (hmem y).mp (List.mem_toFinset.mp hisNext.mem) with rfl | rfl
      · exact ⟨hself, hy⟩
      · exact absurd rfl hisNext.ne

/-- The key `k` is set to `v` while the server is alone. -/
def setAt (x : ServerInfo) : Sent := { setRequest with server := x.address }

theorem set_then_join {x j : ServerInfo} (hclient : setRequest.client ≠ x.address)
    (haddress : j.address ≠ x.address) (hid : x.id ≠ j.id) :
    ∃ s sys ring, ServiceStep (createChord x) (.request (setAt x)) s ∧
      ServiceStep s (.join j x.address) sys ∧ Established sys ring ∧ Owns (nodes s) x [107] ∧
      ∃ server new, sys.parties x.address = some server ∧ sys.parties j.address = some new ∧
        server.ht.bindings tableHash [107] = some [118] ∧ new.ht = htCreate ∧
        server.node.self = x ∧ server.node.next = some j ∧ new.node.self = j ∧
        new.node.next = some x := by
  have h := established_createChord x
  obtain ⟨reply, s, hex⟩ := h.toServing.exists_exchange (setAt x)
    (by simp [createChord, setAt, hclient]) ⟨startedServer x, by simp [createChord, setAt]⟩
  have hnodes := (hex.frame h.toServing).1.trans (nodes_createChord x)
  have hs : Established s [x] := ⟨hex.serving h.toServing, (hex.frame h.toServing).1 ▸ h.wellFormed⟩
  have hx : nodes s x.address = some ⟨x, none, none⟩ := by rw [hnodes, Function.update_self]
  have howns : Owns (nodes s) x [107] := ⟨_, hx, rfl⟩
  have hset : setRequest.request.action &&& setMask ≠ 0 := by decide
  obtain ⟨old, hold, hvalue⟩ := h.toServing.set hex hset howns
  have hfresh : nodes s j.address = none := by rw [hnodes, Function.update_of_ne haddress]
  have hids (address : SockaddrIn) (node : DhtNode) (hnode : nodes s address = some node) :
      node.self.id ≠ j.id := by
    have hself := (hs.ring.self_mem hnode).1
    rw [List.mem_singleton] at hself
    rwa [hself]
  obtain ⟨sys, hjoin⟩ := hs.exists_join hfresh hids ⟨_, hx⟩
  obtain ⟨ring, hsys, hring, -, htables⟩ := hs.join hjoin
  obtain ⟨server, hserver, -, hht⟩ := hs.join_old hjoin hold
  obtain ⟨node, hnode, -⟩ := hsys.ring.running ((hring j).mpr (.inl rfl))
  obtain ⟨new, hnew, rfl⟩ := nodes_eq_some hnode
  have hmem (srv : ServerInfo) : srv ∈ ring ↔ srv = j ∨ srv = x := by rw [hring, List.mem_singleton]
  have hne : x ≠ j := fun heq => hid (congrArg _ heq)
  have hserverNode : nodes sys x.address = some server.node := by rw [nodes, hserver, Option.map_some]
  obtain ⟨hself, hnext⟩ := hsys.wellFormed.next_of_two hne hmem hserverNode
  obtain ⟨hself', hnext'⟩ := hsys.wellFormed.next_of_two hne.symm (fun srv => (hmem srv).trans or_comm)
    hnode
  refine ⟨s, sys, ring, .request hex, hjoin, hsys, howns, server, new, hserver, hnew, hht ▸ hvalue, ?_,
    hself, hnext, hself', hnext'⟩
  have hnone : s.parties j.address = none := Option.map_eq_none_iff.mp hfresh
  rw [htables _ new hnew, tables, hnone]
  rfl

/-! ### All runs -/

/-- **Stored keys after joins.** In every run of requests and joins, a key that a server stores is in its
range, unless a server that has joined took it over. A key is found by every GET if the server that it
was last set at still owns it. -/
theorem stored_keys_after_joins (creator : ServerInfo) :
    (∀ actions sys, Run ServiceStep (createChord creator) actions sys →
      ∀ a server key, sys.parties a = some server → server.ht.bindings tableHash key ≠ none →
        isKeyInRange server.node key = true ∨ TakenOver (createChord creator) actions sys a key) ∧
    ∀ before sent after s s' sys owner, Run ServiceStep (createChord creator) before s →
      ServiceStep s (.request sent) s' → Run ServiceStep s' after sys →
      sent.request.action &&& setMask ≠ 0 →
      (∀ other, .request other ∈ after → other.request.key = sent.request.key →
        other.request.ReadOnly) →
      Owns (nodes s') owner sent.request.key → Owns (nodes sys) owner sent.request.key →
      Found sys sent.request.key sent.request.value := by
  have hstart := established_createChord creator
  refine ⟨fun actions sys hrun a server key hserver hstored => ?_, ?_⟩
  · cases hkey : isKeyInRange server.node key with
    | true => exact .inl rfl
    | false =>
        refine .inr ((hstart.takenOver hrun hserver hstored hkey).resolve_right ?_)
        rintro ⟨old, hold, hold', -⟩
        have hempty : old.ht = htCreate := by
          have hupdate : Function.update (fun _ => none) creator.address
            (some (startedServer creator)) a = some old := hold
          rw [Function.update_apply] at hupdate
          split at hupdate
          · cases hupdate
            rfl
          · cases hupdate
        rw [hempty] at hold'
        exact hold' rfl
  · intro before sent after s s' sys owner hbefore hstep hafter hset hread howns howns'
    obtain ⟨ring, h⟩ := hstart.run hbefore
    obtain ⟨ring', h'⟩ := h.step hstep
    cases hstep with
    | request hex =>
    obtain ⟨server, hserver, hvalue⟩ := h.toServing.set hex hset howns
    obtain ⟨ring'', last, h'', hlast, hlastValue⟩ := h'.keeps hafter hserver hvalue hread
    obtain ⟨node, hnode, hkey⟩ := howns'
    obtain ⟨last', hlast', rfl⟩ := nodes_eq_some hnode
    obtain rfl : last = last' := Option.some.inj (hlast.symm.trans hlast')
    exact h''.toServing.found hlast hkey hlastValue

theorem stored_keys_after_joins_twoServers : ∃ sys, Run ServiceStep (createChord (testServer 1))
      [.request (setAt (testServer 1)), .join (testServer 0) (testServer 1).address] sys ∧
    Found sys [107] [118] := by
  obtain ⟨s, sys, ring, hset, hjoin, -, howns, server, new, hserver, -, -, -, hself, hnext, -⟩ :=
    set_then_join (x := testServer 1) (j := testServer 0) (by decide) (by decide) (by decide)
  have hnode : nodes sys (testServer 1).address = some server.node := by
    rw [nodes, hserver, Option.map_some]
  have hkey : isKeyInRange server.node [107] = true := by
    rw [isKeyInRange, hnext, hself]
    decide
  refine ⟨sys, .cons hset (.single hjoin), ?_⟩
  exact (stored_keys_after_joins (testServer 1)).2 [] (setAt (testServer 1)) _ _ s sys (testServer 1)
    (.nil _) hset (.single hjoin) (by decide) (fun other hother => by simp at hother) howns
    ⟨_, hnode, hkey⟩

/-- Server 0 stores the key `k` and is alone; when server 1 has joined, the key is in the range of
server 1, which does not store it, and no GET finds it. -/
theorem join_strands_key : ∃ actions sys server, Run ServiceStep (createChord (testServer 0)) actions sys ∧
    sys.parties (testServer 0).address = some server ∧
    server.ht.bindings tableHash [107] = some [118] ∧ isKeyInRange server.node [107] = false ∧
    ∀ get reply next, Exchange sys get reply next → get.request.action = getMask →
      get.request.key = [107] → reply.getD 0 0 &&& getMask = 0 := by
  obtain ⟨s, sys, ring, hset, hjoin, h, -, server, new, hserver, hnew, hvalue, hempty, hself, hnext,
    hself', hnext'⟩ := set_then_join (x := testServer 0) (j := testServer 1) (by decide) (by decide)
    (by decide)
  have hout : isKeyInRange server.node [107] = false := by
    rw [isKeyInRange, hnext, hself]
    decide
  have hkey : isKeyInRange new.node [107] = true := by
    rw [isKeyInRange, hnext', hself']
    decide
  refine ⟨_, sys, server, .cons hset (.single hjoin), hserver, hvalue, hout, ?_⟩
  intro get reply next hex hget hgetKey
  obtain ⟨k, heap, rfl, -⟩ := hex.from_owner h.toServing hnew (hgetKey ▸ hkey)
  obtain ⟨action, haction, hbit, hreply⟩ := get.request.serve_reply new.ht
  have hfound : get.request.found (get.request.serve new.ht).1 = none := by
    rw [Option.eq_none_iff_forall_ne_some]
    intro value hsome
    obtain ⟨-, ⟨hset, -⟩ | ⟨-, -, hold⟩⟩ :=
      (get.request.found_serve (h.wf _ new hnew) value).mp hsome
    · exact hset (by rw [hget]; decide)
    · rw [hempty] at hold
      cases hold
  have hheader := (isReply_serve get.request new.ht).header
  rw [sentOn_getD_zero _ _ _ (Nat.lt_of_lt_of_le (by decide) hheader), hreply, hfound]
  change (action ^^^ acknowledgmentMask) &&& getMask = 0
  rw [(acknowledge _ haction).2]
  by_contra hne
  rw [← Ne, hbit, hfound] at hne
  cases hne

end ComputerNetworking.Dht
