import ComputerNetworking.ChordJoin
import ComputerNetworking.ServerRequest

/-! One request and its reply.

The request goes along the next pointers to the owner of its key; the servers on its way wait for the
answer, and send it back the same way. In the end no server waits, and only the table of the owner may
have changed. -/

namespace ComputerNetworking.Dht

open Clockwise Datagrams Transition

/-! ### Routes -/

section Routes

variable {ns : SockaddrIn → Option DhtNode} {key : Bytes} {x y owner owner' : ServerInfo} {j k : Nat}

theorem Forwarded.owns (h : Forwarded ns key x k owner) : Owns ns owner key := by
  induction h with
  | process hnode hkey => exact ⟨_, hnode, hkey⟩
  | forward _ _ _ _ ih => exact ih

/-- The way of a request depends on the address only that it is sent to. -/
theorem Forwarded.unique (h : Forwarded ns key x k owner) (h' : Forwarded ns key y j owner')
    (haddress : x.address = y.address) : k = j := by
  induction h generalizing y j with
  | process hnode hkey =>
      cases h' with
      | process => rfl
      | forward hnode' hkey' =>
          rw [haddress, hnode'] at hnode
          cases hnode
          rw [hkey] at hkey'
          cases hkey'
  | forward hnode hkey hnext _ ih =>
      cases h' with
      | process hnode' hkey' =>
          rw [haddress, hnode'] at hnode
          cases hnode
          rw [hkey'] at hkey
          cases hkey
      | forward hnode' _ hnext' htail' =>
          rw [haddress, hnode'] at hnode
          cases hnode
          rw [hnext'] at hnext
          cases hnext
          exact congrArg _ (ih htail' rfl)

/-- A request does not come back to a server that has forwarded it. -/
theorem Forwarded.address_ne (h : Forwarded ns key x j owner) (h' : Forwarded ns key y k owner')
    (hne : j ≠ k) : x.address ≠ y.address := fun heq => hne (h.unique h' heq)

end Routes

/-! ### The way of a request and its reply -/

/-- The reply after `k` servers have sent it on. Only the first of them finds fresh memory behind it. -/
def sentOn (heap : Nat → UInt8) (r : Request) (k : Nat) (reply : Bytes) : Bytes :=
  if k = 0 then reply else recvInto heap r.encode.length reply

theorem sentOn_succ (heap heap' : Nat → UInt8) (r : Request) (k : Nat) (reply : Bytes) :
    ∃ heap'', recvInto heap' r.encode.length (sentOn heap r k reply) = sentOn heap'' r (k + 1) reply := by
  rcases Nat.eq_zero_or_pos k with rfl | hk
  · exact ⟨heap', rfl⟩
  · refine ⟨heap, ?_⟩
    rw [sentOn, sentOn, if_neg (by omega), if_neg (by omega)]
    have hself := recvInto_self heap' (recvInto heap r.encode.length reply)
    rwa [length_recvInto] at hself

theorem IsReply.sentOn {r : Request} {reply : Bytes} (h : IsReply r reply) (heap : Nat → UInt8)
    (k : Nat) : IsReply r (sentOn heap r k reply) := by
  unfold Dht.sentOn
  split
  · exact h
  · exact h.relayed heap

/-- The owner has processed the request, and the reply is on its way from the first server to where the
request came from. -/
def Served (r : Request) (parties : SockaddrIn → Option Server) (first src : SockaddrIn)
    (owner : ServerInfo) (k : Nat) (t : System) : Prop :=
  ∃ server heap, parties owner.address = some server ∧
    t.parties = Function.update parties owner.address
      (some { server with ht := (r.serve server.ht).1 }) ∧
    t.inFlight = [⟨first, src, sentOn heap r k (r.serve server.ht).2⟩]

theorem nodes_eq_some {sys : System} {a : SockaddrIn} {node : DhtNode} (h : nodes sys a = some node) :
    ∃ server, sys.parties a = some server ∧ server.node = node :=
  Option.map_eq_some_iff.mp h

/-- The nodes stay as they are when a server changes in other respects. -/
theorem nodes_update {sys : System} {a : SockaddrIn} {server server' : Server}
    (h : sys.parties a = some server) (hnode : server'.node = server.node)
    (inFlight : List (Datagram SockaddrIn Bytes)) :
    nodes ⟨Function.update sys.parties a (some server'), inFlight⟩ = nodes sys := by
  funext b
  by_cases hb : b = a
  · subst hb
    simp [nodes, h, hnode]
  · simp [nodes, hb]

section Exchange

variable {r : Request} {ns : SockaddrIn → Option DhtNode} {x owner : ServerInfo} {k : Nat}
  {sys : System} {src : SockaddrIn}

/-- The owner of its key processes a request. -/
theorem served_of_owner {server : Server} (hserver : sys.parties x.address = some server)
    (haddress : server.node.self.address = x.address) (hkey : isKeyInRange server.node r.key = true)
    (hpending : server.pending = none) (hflight : sys.inFlight = [⟨src, x.address, r.encode⟩]) :
    Inevitably ServerStep (Served r sys.parties x.address src x 0) sys := by
  refine inevitably_of_single hflight hserver fun heap => .here ?_
  rw [react_request heap server r _ rfl hpending, handleExtMsg_encode heap server r _ rfl, if_pos hkey,
    haddress]
  exact ⟨server, heap, hserver, rfl, rfl⟩

/-- A server that has forwarded the request sends the reply on. -/
theorem served_of_reply {server : Server} {next : ServerInfo} {t : System}
    (hserver : sys.parties x.address = some server) (haddress : server.node.self.address = x.address)
    (hpending : server.pending = none) (hne : owner.address ≠ x.address)
    (ht : Served r (Function.update sys.parties x.address
      (some { server with pending := some ⟨r.encode, src⟩ })) next.address x.address owner k t) :
    Inevitably ServerStep (Served r sys.parties x.address src owner (k + 1)) t := by
  obtain ⟨last, heap, hlast, hparties, hflight⟩ := ht
  replace hlast : sys.parties owner.address = some last := by
    rwa [Function.update_of_ne hne] at hlast
  have hwaiting : t.parties x.address = some { server with pending := some ⟨r.encode, src⟩ } := by
    rw [hparties, Function.update_of_ne hne.symm, Function.update_self]
  have hreply := (isReply_serve r last.ht).sentOn heap k
  refine inevitably_of_single hflight hwaiting fun heap' => .here ?_
  obtain ⟨heap'', hsent⟩ := sentOn_succ heap heap' r k (r.serve last.ht).2
  rw [react_reply heap' _ r ⟨next.address, x.address, sentOn heap r k (r.serve last.ht).2⟩ hreply rfl]
  refine ⟨last, heap'', hlast, ?_, ?_⟩
  · change Function.update t.parties x.address _ = _
    rw [hparties]
    refine Function.update_eq_iff.mpr ⟨?_, fun z hz => ?_⟩
    · rw [Function.update_of_ne hne.symm, hserver, ← hpending]
    · by_cases hzo : z = owner.address
      · rw [hzo, Function.update_self, Function.update_self]
      · rw [Function.update_of_ne hzo, Function.update_of_ne hzo, Function.update_of_ne hz]
  · change [_] = [_]
    rw [hsent, haddress]

/-- A request reaches the owner of its key, and the reply comes back. -/
theorem served_of_forwarded (haddress : ∀ a node, ns a = some node → node.self.address = a)
    (h : Forwarded ns r.key x k owner) (hnodes : nodes sys = ns)
    (hidle : ∀ y j server, j ≤ k → Forwarded ns r.key y j owner →
      sys.parties y.address = some server → server.pending = none)
    (hflight : sys.inFlight = [⟨src, x.address, r.encode⟩]) :
    Inevitably ServerStep (Served r sys.parties x.address src owner k) sys := by
  induction h generalizing sys src with
  | process hnode hkey =>
      obtain ⟨server, hserver, rfl⟩ := nodes_eq_some (hnodes ▸ hnode)
      exact served_of_owner hserver (haddress _ _ hnode) hkey
        (hidle _ 0 server le_rfl (.process hnode hkey) hserver) hflight
  | @forward x next owner node k hnode hkey hnext htail ih =>
      obtain ⟨server, hserver, rfl⟩ := nodes_eq_some (hnodes ▸ hnode)
      have hself := haddress _ _ hnode
      have hall : Forwarded ns r.key x (k + 1) owner := .forward hnode hkey hnext htail
      have hpending := hidle x (k + 1) server le_rfl hall hserver
      refine inevitably_of_single hflight hserver fun heap => ?_
      rw [react_request heap server r _ rfl hpending, handleExtMsg_encode heap server r _ rfl,
        if_neg (by rw [hkey]; exact Bool.false_ne_true), hnext]
      obtain ⟨onode, honode, hokey⟩ := htail.owns
      have hne := Forwarded.address_ne (.process honode hokey) hall (Nat.succ_ne_zero k).symm
      refine (@ih _ x.address ?_ ?_ ?_).trans fun t ht => ?_
      · exact Eq.trans (nodes_update hserver (by rfl) _) hnodes
      · intro y j other hj hy hother
        have hyx := hy.address_ne hall (by omega)
        change Function.update sys.parties x.address _ y.address = _ at hother
        rw [Function.update_of_ne hyx] at hother
        exact hidle y j other (by omega) hy hother
      · change [DhtNode.send _ _ _] = _
        rw [DhtNode.send, hself]
      · exact served_of_reply hserver hself hpending hne ht

end Exchange

end ComputerNetworking.Dht
