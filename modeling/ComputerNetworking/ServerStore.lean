import ComputerNetworking.ServerExchange

/-! The servers of a ring store one map together.

The abstract store is a map from keys to values. Every server holds its bindings of the keys that the
server owns, and no others; one exchange does to the map what it does to the table of the owner. -/

namespace ComputerNetworking.Dht

open Clockwise Datagrams Transition

/-- One server without a next one, or two or more with correct next pointers. -/
inductive FixedRing (nodes : SockaddrIn → Option DhtNode) (ring : List ServerInfo) : Prop where
  | alone {node : DhtNode} (hring : ring = [node.self]) (hnext : node.next = none)
      (hnode : nodes node.self.address = some node)
      (hrunning : ∀ address other, nodes address = some other → address = node.self.address)
  | ring (hlen : 2 ≤ ring.length) (hring : ClockwiseRing nodes ring)

section Rings

variable {ns : SockaddrIn → Option DhtNode} {ring : List ServerInfo}

theorem FixedRing.self_mem (h : FixedRing ns ring) {a : SockaddrIn} {node : DhtNode}
    (hnode : ns a = some node) : node.self ∈ ring ∧ node.self.address = a := by
  cases h with
  | alone hring hnext hsingle hrunning =>
      obtain rfl := hrunning a node hnode
      rw [hsingle] at hnode
      cases hnode
      exact ⟨by simp [hring], rfl⟩
  | ring hlen hring =>
      have := (hring.linked hlen).mem_of_node a node hnode
      exact ⟨List.mem_toFinset.mp this.1, this.2⟩

theorem FixedRing.running (h : FixedRing ns ring) {srv : ServerInfo} (hsrv : srv ∈ ring) :
    ∃ node, ns srv.address = some node ∧ node.self = srv := by
  cases h with
  | alone hring hnext hsingle hrunning =>
      rw [hring, List.mem_singleton] at hsrv
      exact ⟨_, hsrv ▸ hsingle, hsrv.symm⟩
  | ring hlen hring => exact (hring.linked hlen).node_of_mem srv (List.mem_toFinset.mpr hsrv)

/-- A request reaches an owner of its key from every server. -/
theorem FixedRing.forwarded (h : FixedRing ns ring) (key : Bytes) {a : SockaddrIn} {node : DhtNode}
    (hnode : ns a = some node) : ∃ k owner, owner ∈ ring ∧ Forwarded ns key node.self k owner := by
  obtain ⟨hmem, haddress⟩ := h.self_mem hnode
  cases h with
  | alone hring hnext hsingle hrunning =>
      obtain rfl := hrunning a node hnode
      rw [hsingle] at hnode
      cases hnode
      exact ⟨0, _, hmem, .process hsingle (isKeyInRange_of_next_none hnext key)⟩
  | ring hlen hring =>
      obtain ⟨k, owner, -, howner, -, hforwarded⟩ :=
        (hring.linked hlen).forwarded key (List.mem_toFinset.mpr hmem)
      exact ⟨k, owner, List.mem_toFinset.mp howner, hforwarded⟩

theorem FixedRing.exists_owner (h : FixedRing ns ring) (key : Bytes) :
    ∃ owner node, ns owner = some node ∧ isKeyInRange node key = true := by
  obtain ⟨srv, hsrv⟩ : ∃ srv, srv ∈ ring := by
    cases h with
    | alone hring hnext hsingle hrunning => exact ⟨_, hring ▸ List.mem_singleton_self _⟩
    | ring hlen hring => exact List.exists_mem_of_length_pos (by omega)
  obtain ⟨node, hnode, -⟩ := h.running hsrv
  obtain ⟨k, owner, -, hforwarded⟩ := h.forwarded key hnode
  obtain ⟨last, hlast, hkey⟩ := hforwarded.owns
  exact ⟨_, last, hlast, hkey⟩

/-- No two servers own a key. -/
theorem FixedRing.owner_unique (h : FixedRing ns ring) {key : Bytes} {a b : SockaddrIn}
    {node node' : DhtNode} (ha : ns a = some node) (hb : ns b = some node')
    (hkey : isKeyInRange node key = true) (hkey' : isKeyInRange node' key = true) : a = b := by
  cases h with
  | alone hring hnext hsingle hrunning => rw [hrunning a node ha, hrunning b node' hb]
  | ring hlen hring =>
      have hlinked := hring.linked hlen
      have hmem := hlinked.mem_of_node a node ha
      have hmem' := hlinked.mem_of_node b node' hb
      obtain ⟨srv, -, huniq⟩ := existsUnique_isOwner hlinked.distinct ⟨_, hmem.1⟩ (stringHash key).toFin
      rw [hlinked.isKeyInRange_iff ha] at hkey
      rw [hlinked.isKeyInRange_iff hb] at hkey'
      rw [← hmem.2, ← hmem'.2, huniq _ hkey, huniq _ hkey']

end Rings

/-! ### Exchanges -/

/-- A request that a client sends to a server. -/
structure Sent where
  client : SockaddrIn
  server : SockaddrIn
  request : Request

/-- A client, which is no server, sends a request to a server, and gets the reply when nothing else is
in flight any more. -/
structure Exchange (sys : System) (sent : Sent) (reply : Bytes) (next : System) : Prop where
  client : sys.parties sent.client = none
  server : ∃ server, sys.parties sent.server = some server
  inFlight : next.inFlight = []
  completed : ∃ src steps, Run ServerStep (sendRequest sys sent.client sent.server sent.request.encode)
    steps ⟨next.parties, [⟨src, sent.client, reply⟩]⟩

def ExchangeStep (sys : System) (sent : Sent) (next : System) : Prop :=
  ∃ reply, Exchange sys sent reply next

/-- What holds between two requests. -/
structure Serving (sys : System) (ring : List ServerInfo) : Prop where
  quiet : Quiet sys
  ring : FixedRing (nodes sys) ring
  wf : ∀ a server, sys.parties a = some server → server.ht.Wf tableHash
  short : ∀ a server key value, sys.parties a = some server →
    server.ht.bindings tableHash key = some value → value.length < 65536

section Exchanges

variable {sys next : System} {ring : List ServerInfo} {sent : Sent} {reply : Bytes}

/-- Every request to a running server is served. -/
theorem Serving.served (h : Serving sys ring) (sent : Sent) {first : Server}
    (hfirst : sys.parties sent.server = some first) : ∃ k owner, owner ∈ ring ∧
      Forwarded (nodes sys) sent.request.key first.node.self k owner ∧
      Inevitably ServerStep (Served sent.request sys.parties sent.server sent.client owner k)
        (sendRequest sys sent.client sent.server sent.request.encode) := by
  have hnode : nodes sys sent.server = some first.node := by rw [nodes, hfirst, Option.map_some]
  obtain ⟨k, owner, howner, hforwarded⟩ := h.ring.forwarded sent.request.key hnode
  have haddress := (h.ring.self_mem hnode).2
  refine ⟨k, owner, howner, hforwarded, ?_⟩
  rw [← haddress]
  refine @served_of_forwarded sent.request _ _ _ _ (sendRequest sys _ _ sent.request.encode)
    sent.client (fun a node ha => (h.ring.self_mem ha).2) hforwarded rfl ?_ ?_
  · exact fun y j server _ _ hserver => h.quiet.pending _ server hserver
  · rw [sendRequest, h.quiet.inFlight]
    rfl

/-- The reply to a client is the end of the steps. -/
theorem Served.terminal {r : Request} {src : SockaddrIn} {first : SockaddrIn} {owner : ServerInfo}
    {k : Nat} {t : System} (hsrc : sys.parties src = none)
    (h : Served r sys.parties first src owner k t) : Terminal ServerStep t := by
  obtain ⟨server, heap, hserver, hparties, hflight⟩ := h
  refine terminal_of_parties_none react fun d hd => ?_
  rw [hflight, List.mem_singleton] at hd
  subst hd
  have hne : src ≠ owner.address := by
    rintro rfl
    rw [hsrc] at hserver
    cases hserver
  change t.parties src = none
  rw [hparties, Function.update_of_ne hne, hsrc]

theorem Serving.exists_exchange (h : Serving sys ring) (sent : Sent) (hclient : sys.parties sent.client = none)
    (hserver : ∃ server, sys.parties sent.server = some server) :
    ∃ reply next, Exchange sys sent reply next := by
  obtain ⟨first, hfirst⟩ := hserver
  obtain ⟨k, owner, -, -, hserved⟩ := h.served sent hfirst
  obtain ⟨steps, t, hrun, last, heap, -, -, hflight⟩ := hserved.reaches
  obtain ⟨parties, inFlight⟩ := t
  subst hflight
  exact ⟨_, ⟨parties, []⟩, hclient, ⟨first, hfirst⟩, rfl, _, steps, hrun⟩

/-- What an exchange does: the owner of the key processes the request, and the client gets what the
servers on the way make of its reply. -/
theorem Exchange.spec (h : Serving sys ring) (hex : Exchange sys sent reply next) :
    ∃ first k owner server heap, sys.parties sent.server = some first ∧ owner ∈ ring ∧
      Forwarded (nodes sys) sent.request.key first.node.self k owner ∧
      sys.parties owner.address = some server ∧
      next = ⟨Function.update sys.parties owner.address
        (some { server with ht := (sent.request.serve server.ht).1 }), []⟩ ∧
      reply = sentOn heap sent.request k (sent.request.serve server.ht).2 := by
  obtain ⟨first, hfirst⟩ := hex.server
  obtain ⟨k, owner, howner, hforwarded, hserved⟩ := h.served sent hfirst
  obtain ⟨src, steps, hrun⟩ := hex.completed
  have hstopped (s : System) (a) (t : System) (hs : s.parties sent.client = none)
      (hstep : ServerStep s a t) : t.parties sent.client = none := hstep.parties_none hs
  have hclient : next.parties sent.client = none := hrun.invariant hstopped hex.client
  have hterminal : Terminal ServerStep ⟨next.parties, [⟨src, sent.client, reply⟩]⟩ :=
    terminal_of_parties_none react fun d hd => by
      rw [List.mem_singleton] at hd
      subst hd
      exact hclient
  obtain ⟨server, heap, hserver, hparties, hflight⟩ :=
    hserved.of_run_terminal (fun t => Served.terminal hex.client) hrun hterminal
  refine ⟨first, k, owner, server, heap, hfirst, howner, hforwarded, hserver, ?_, ?_⟩
  · obtain ⟨parties, inFlight⟩ := next
    obtain rfl : inFlight = [] := hex.inFlight
    exact congrArg (Network.mk · []) hparties
  · simp only [List.cons.injEq, Datagram.mk.injEq] at hflight
    exact hflight.1.2.2

theorem Request.forall_calls (r : Request) : ∀ call ∈ r.calls, call = .delete r.key ∨
    call = .set r.key r.value := by
  intro call hcall
  rw [Request.calls, List.mem_append] at hcall
  rcases hcall with hcall | hcall <;> split at hcall
  · exact .inl (List.mem_singleton.mp hcall)
  · cases hcall
  · exact .inr (List.mem_singleton.mp hcall)
  · cases hcall

/-- A request leaves the other keys of a map alone. -/
theorem Request.onMap_of_ne (r : Request) (map : Bytes → Option Bytes) {key : Bytes} (h : key ≠ r.key) :
    r.calls.foldl Call.onMap map key = map key := by
  refine foldl_onMap_of_not_writes (fun call hcall hwrites => ?_) map
  rcases r.forall_calls call hcall with rfl | rfl <;> exact h hwrites.symm

/-- The value of a key after a request is that before it or the one of the request. -/
theorem Request.onMap_value (r : Request) (map : Bytes → Option Bytes) {key value : Bytes}
    (h : r.calls.foldl Call.onMap map key = some value) : map key = some value ∨ value = r.value := by
  refine List.foldlRecOn r.calls Call.onMap
    (motive := fun m : Bytes → Option Bytes => m key = some value → map key = some value ∨ value = r.value)
    .inl (fun m hm call hcall hvalue => ?_) h
  rcases r.forall_calls call hcall with rfl | rfl
  · rw [Call.onMap, Function.update_apply] at hvalue
    split at hvalue
    · cases hvalue
    · exact hm hvalue
  · rw [Call.onMap, Function.update_apply] at hvalue
    split at hvalue
    · cases hvalue
      exact .inr rfl
    · exact hm hvalue

/-- An exchange leaves every server as it is, but for the table of the owner of the key. -/
theorem Exchange.frame (h : Serving sys ring) (hex : Exchange sys sent reply next) :
    nodes next = nodes sys ∧ ∀ a new, next.parties a = some new → ∃ old, sys.parties a = some old ∧
      new.node = old.node ∧ new.pending = none ∧ new.ht.Wf tableHash ∧ new.ht.bindings tableHash =
        if isKeyInRange old.node sent.request.key then
          sent.request.calls.foldl Call.onMap (old.ht.bindings tableHash)
        else old.ht.bindings tableHash := by
  obtain ⟨first, k, owner, server, heap, -, -, hforwarded, hserver, rfl, -⟩ := hex.spec h
  obtain ⟨node, hnode, hkey⟩ := hforwarded.owns
  obtain ⟨server', hserver', rfl⟩ := nodes_eq_some hnode
  obtain rfl : server = server' := Option.some.inj (hserver.symm.trans hserver')
  refine ⟨nodes_update hserver (by rfl) [], fun a new hnew => ?_⟩
  change Function.update sys.parties owner.address _ a = some new at hnew
  rw [Function.update_apply] at hnew
  split at hnew
  · rename_i ha
    obtain rfl := Option.some.inj hnew
    obtain ⟨hwf, hbindings⟩ := foldl_apply_spec (h.wf _ server hserver) sent.request.calls
    rw [← sent.request.serve_table] at hwf hbindings
    refine ⟨server, ha ▸ hserver, rfl, h.quiet.pending _ server hserver, hwf, ?_⟩
    rw [if_pos hkey]
    exact hbindings
  · rename_i ha
    refine ⟨new, hnew, rfl, h.quiet.pending a new hnew, h.wf a new hnew, (if_neg fun hrange => ha ?_).symm⟩
    have hanode : nodes sys a = some new.node := by rw [nodes, hnew, Option.map_some]
    exact h.ring.owner_unique hanode hnode hrange hkey

/-- Between two requests the same holds as before. -/
theorem Exchange.serving (h : Serving sys ring) (hex : Exchange sys sent reply next) :
    Serving next ring := by
  obtain ⟨hnodes, hframe⟩ := hex.frame h
  refine ⟨⟨hex.inFlight, fun a new hnew => ?_⟩, hnodes ▸ h.ring, fun a new hnew => ?_,
    fun a new key value hnew hvalue => ?_⟩
  · obtain ⟨old, -, -, hpending, -⟩ := hframe a new hnew
    exact hpending
  · obtain ⟨old, -, -, -, hwf, -⟩ := hframe a new hnew
    exact hwf
  · obtain ⟨old, hold, -, -, -, hbindings⟩ := hframe a new hnew
    rw [hbindings] at hvalue
    split at hvalue
    · rcases sent.request.onMap_value _ hvalue with hvalue | rfl
      · exact h.short a old key value hold hvalue
      · exact sent.request.value_lt
    · exact h.short a old key value hold hvalue

/-- A ring with empty tables is ready for requests. -/
theorem serving_of_empty (hring : FixedRing (nodes sys) ring) (hquiet : Quiet sys)
    (hempty : ∀ a server, sys.parties a = some server → server.ht = htCreate) : Serving sys ring := by
  refine ⟨hquiet, hring, fun a server hserver => ?_, fun a server key value hserver hvalue => ?_⟩
  · exact hempty a server hserver ▸ wf_htCreate tableHash
  · rw [hempty a server hserver] at hvalue
    cases hvalue

/-! ### The common map -/

/-- Every server holds the bindings of the keys that it owns. -/
def Partitioned (sys : System) (map : Bytes → Option Bytes) : Prop :=
  ∀ a server, sys.parties a = some server → server.ht.bindings tableHash =
    fun key => if isKeyInRange server.node key then map key else none

/-- An exchange does to the common map what the request does to any. -/
theorem Exchange.partitioned (h : Serving sys ring) (hex : Exchange sys sent reply next)
    {map : Bytes → Option Bytes} (hmap : Partitioned sys map) :
    Partitioned next (sent.request.calls.foldl Call.onMap map) := by
  intro a new hnew
  obtain ⟨old, hold, hnode, -, -, hbindings⟩ := (hex.frame h).2 a new hnew
  funext key
  rw [hbindings, hnode, hmap a old hold]
  by_cases howns : isKeyInRange old.node sent.request.key = true
  · rw [if_pos howns]
    cases hrange : isKeyInRange old.node key with
    | true => exact foldl_onMap_congr (by simp [hrange]) _
    | false =>
        have hne : key ≠ sent.request.key := by
          rintro rfl
          rw [howns] at hrange
          cases hrange
        rw [sent.request.onMap_of_ne _ hne]
        exact if_neg (by rw [hrange]; exact Bool.false_ne_true)
  · rw [if_neg howns]
    cases hrange : isKeyInRange old.node key with
    | true =>
        have hne : key ≠ sent.request.key := by
          rintro rfl
          exact howns hrange
        rw [sent.request.onMap_of_ne _ hne]
    | false => rfl

theorem partitioned_run {requests : List Sent} (hrun : Run ExchangeStep sys requests next)
    (h : Serving sys ring) {map : Bytes → Option Bytes} (hmap : Partitioned sys map) :
    Serving next ring ∧ nodes next = nodes sys ∧
      Partitioned next ((requests.flatMap (·.request.calls)).foldl Call.onMap map) := by
  induction hrun generalizing map with
  | nil s => exact ⟨h, rfl, hmap⟩
  | cons hstep _ ih =>
      obtain ⟨reply, hex⟩ := hstep
      obtain ⟨hserving, hnodes, hmap'⟩ := ih (hex.serving h) (hex.partitioned h hmap)
      rw [List.flatMap_cons, List.foldl_append]
      exact ⟨hserving, hnodes.trans (hex.frame h).1, hmap'⟩

end Exchanges

/-- **The servers together store one map.** After any sequence of requests to the servers of a ring
with empty tables, a key is stored at its owner only, and the tables together bind what one table binds
after the deletions and settings of the requests; and whatever request comes next, its reply comes
back. -/
theorem servers_store_one_map (sys : System) (ring : List ServerInfo)
    (hring : FixedRing (nodes sys) ring) (hquiet : Quiet sys)
    (hempty : ∀ a server, sys.parties a = some server → server.ht = htCreate)
    (requests : List Sent) (next : System) (hrun : Run ExchangeStep sys requests next) :
    (∀ key a server, next.parties a = some server → server.ht.bindings tableHash key ≠ none →
        isKeyInRange server.node key = true ∧ ∀ b other, next.parties b = some other →
          other.ht.bindings tableHash key ≠ none → b = a) ∧
      (∀ key value, (∃ a server, next.parties a = some server ∧
          server.ht.bindings tableHash key = some value) ↔
        (runCalls tableHash (requests.flatMap (·.request.calls))).bindings tableHash key = some value) ∧
      nodes next = nodes sys ∧
      ∀ sent : Sent, (∃ server, next.parties sent.server = some server) →
        Inevitably ServerStep (fun t => ∃ src reply, t.inFlight = [⟨src, sent.client, reply⟩])
          (sendRequest next sent.client sent.server sent.request.encode) := by
  have hbindings (key : Bytes) : htCreate.bindings tableHash key = none := rfl
  have hstart := serving_of_empty hring hquiet hempty
  have hnone : Partitioned sys fun _ => none := by
    intro a server hserver
    funext key
    rw [hempty a server hserver, hbindings, ite_self]
  obtain ⟨hserving, hnodes, hmap⟩ := partitioned_run hrun hstart hnone
  have hnode {a : SockaddrIn} {server : Server} (ha : next.parties a = some server) :
      nodes next a = some server.node := by rw [nodes, ha, Option.map_some]
  have howned (key : Bytes) {a : SockaddrIn} {server : Server} (ha : next.parties a = some server)
      (hkey : server.ht.bindings tableHash key ≠ none) : isKeyInRange server.node key = true := by
    by_contra hrange
    exact hkey (by rw [hmap a server ha]; exact if_neg hrange)
  refine ⟨fun key a server ha hkey => ⟨howned key ha hkey, fun b other hb hkey' => ?_⟩, fun key value => ?_,
    hnodes, fun sent hserver => ?_⟩
  · exact hserving.ring.owner_unique (hnode hb) (hnode ha) (howned key hb hkey')
      (howned key ha hkey)
  · rw [(runCalls_spec tableHash _).2, mapOf]
    constructor
    · rintro ⟨a, server, ha, hvalue⟩
      have hrange := howned key ha (by rw [hvalue]; exact Option.some_ne_none value)
      rw [hmap a server ha] at hvalue
      simpa [hrange] using hvalue
    · intro hvalue
      obtain ⟨a, node, ha, hrange⟩ := hserving.ring.exists_owner key
      obtain ⟨server, hserver, rfl⟩ := nodes_eq_some ha
      refine ⟨a, server, hserver, ?_⟩
      rw [hmap a server hserver]
      exact (if_pos hrange).trans hvalue
  · obtain ⟨server, hserver⟩ := hserver
    obtain ⟨k, owner, -, -, hserved⟩ := hserving.served sent hserver
    refine hserved.mono fun t ht => ?_
    obtain ⟨last, heap, -, -, hflight⟩ := ht
    exact ⟨_, _, hflight⟩

theorem twoServerSystem_ring :
    FixedRing (nodes twoServerSystem) [testServer 0, testServer 1] := by
  rw [twoServerSystem, nodes_toSystem]
  exact .ring (by decide) twoServers_ring

theorem testKey_lt : ([107] : Bytes).length < 65536 := by decide

/-- A client asks server 1 to set the key `k` to `v`. -/
def setRequest : Sent where
  client := ⟨0x7f000001, 5000⟩
  server := (testServer 1).address
  request := ⟨setMask, 0, [107], [118], by decide, testKey_lt, by decide⟩

theorem servers_store_one_map_twoServers : ∃ next, Run ExchangeStep twoServerSystem [setRequest] next ∧
    ∃ a server, next.parties a = some server ∧
      server.ht.bindings tableHash [107] = some [118] := by
  have hquiet : Quiet twoServerSystem := ⟨rfl, fun _ _ h => (twoServerSystem_parties h).1⟩
  have hempty (a : SockaddrIn) (server : Server) (h : twoServerSystem.parties a = some server) :=
    (twoServerSystem_parties h).2
  obtain ⟨reply, next, hex⟩ := (serving_of_empty twoServerSystem_ring hquiet hempty).exists_exchange
    setRequest rfl ⟨_, rfl⟩
  have hrun : Run ExchangeStep twoServerSystem [setRequest] next := .single ⟨reply, hex⟩
  refine ⟨next, hrun, ?_⟩
  have hmap := servers_store_one_map twoServerSystem _ twoServerSystem_ring hquiet hempty _ next hrun
  exact (hmap.2.1 [107] [118]).mpr (by decide +kernel)

end ComputerNetworking.Dht
