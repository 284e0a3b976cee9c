import ComputerNetworking.ChordQuiescence
import ComputerNetworking.ServerExchange

/-! Rings of servers with any ids.

The id of a server is an argument that nothing compares with the ids of the others. A server joins
behind the first one that it meets in whose arc its id lies, or whose next server has the same id, so
that the next pointers still form one cycle through all servers, and the previous pointers are good
enough for the next join. An arc between two servers with the same id is empty. -/

namespace ComputerNetworking.Dht

open Clockwise Datagrams Transition Relation

/-! ### Cycles of servers -/

/-- A running server and its next one. -/
def NextTo (ns : SockaddrIn → Option DhtNode) (a b : ServerInfo) : Prop :=
  ∃ node, ns a.address = some node ∧ node.self = a ∧ node.next = some b

/-- The next pointers of the servers form one cycle, unless there is only one server. A previous pointer
leads to a server with the same id, or at least as far as the server before. -/
structure ServerCycle (ns : SockaddrIn → Option DhtNode) : Prop where
  address : ∀ a node, ns a = some node → node.self.address = a
  next : ∀ a node y, ns a = some node → node.next = some y → Runs ns y
  alone : ∀ a node, ns a = some node → node.next = none →
    node.prev = none ∧ ∀ b other, ns b = some other → b = a
  injective : ∀ a b node other y, ns a = some node → ns b = some other → node.next = some y →
    other.next = some y → a = b
  connected : ∀ a b, Runs ns a → Runs ns b → ReflTransGen (NextTo ns) a b
  prev : ∀ a node b before q, ns a = some node → node.prev = some q → ns b = some before →
    before.next = some node.self → q.id = node.self.id ∨
      0 < offset before.self.position node.self.position ∧
        offset before.self.position node.self.position ≤ offset q.position node.self.position

section Cycle

variable {ns : SockaddrIn → Option DhtNode} {srv other : ServerInfo}

theorem ServerCycle.runs (h : ServerCycle ns) {a : SockaddrIn} {node : DhtNode} (ha : ns a = some node) :
    Runs ns node.self := ⟨node, (h.address a node ha).symm ▸ ha, rfl⟩

/-- A walk along next pointers over arcs without the key is a sequence of forwards. -/
theorem forwarded_of_walk {key : Bytes} {owner : ServerInfo}
    (hwalk : ReflTransGen (Outside ServerInfo.position (NextTo ns) (stringHash key).toFin) srv other)
    {k : ℕ} (htail : Forwarded ns key other k owner) : ∃ k, Forwarded ns key srv k owner := by
  induction hwalk using ReflTransGen.head_induction_on with
  | refl => exact ⟨k, htail⟩
  | head hstep _ ih =>
      obtain ⟨k, hforwarded⟩ := ih
      obtain ⟨⟨node, hnode, rfl, hnext⟩, hout⟩ := hstep
      refine ⟨k + 1, .forward hnode ?_ hnext hforwarded⟩
      rw [← Bool.not_eq_true, isKeyInRange_iff hnext]
      exact hout

/-- Among servers with different ids every request reaches an owner of its key. -/
theorem ServerCycle.forwarded (h : ServerCycle ns) (hsrv : Runs ns srv) (hother : Runs ns other)
    (hid : other.id ≠ srv.id) (key : Bytes) : ∃ k owner, Forwarded ns key srv k owner := by
  have hrunning (b : ServerInfo) (hb : ReflTransGen (NextTo ns) srv b) : Runs ns b := by
    cases hb using ReflTransGen.casesOn with
    | refl => exact hsrv
    | tail _ hstep =>
        obtain ⟨node, hnode, -, hnext⟩ := hstep
        exact h.next _ node b hnode hnext
  have hposition : other.position ≠ srv.position := fun heq => hid (UInt16.toFin_inj.mp heq)
  obtain ⟨c, d, hwalk, ⟨node, hnode, rfl, hnext⟩, harc⟩ := exists_arc_of_walks
    (fun b hb => h.connected b srv (hrunning b hb) hsrv) (h.connected srv other hsrv hother)
    hposition (stringHash key).toFin
  obtain ⟨k, hforwarded⟩ := forwarded_of_walk hwalk
    (.process hnode ((isKeyInRange_iff hnext key).mpr harc))
  exact ⟨k, _, hforwarded⟩

/-- Among several servers with the same id nobody owns a key. -/
theorem ServerCycle.not_owns (h : ServerCycle ns) (hsrv : Runs ns srv) (hother : Runs ns other)
    (hne : srv.address ≠ other.address) (hsame : ∀ a b, Runs ns a → Runs ns b → a.id = b.id)
    (owner : ServerInfo) (key : Bytes) : ¬Owns ns owner key := by
  rintro ⟨node, hnode, hkey⟩
  cases hnext : node.next with
  | none =>
      obtain ⟨-, honly⟩ := h.alone _ node hnode hnext
      obtain ⟨first, hfirst⟩ := hsrv.exists_node
      obtain ⟨second, hsecond⟩ := hother.exists_node
      exact hne ((honly _ first hfirst).trans (honly _ second hsecond).symm)
  | some y =>
      rw [isKeyInRange_iff hnext, ServerInfo.position, ServerInfo.position,
        hsame y node.self (h.next _ node y hnode hnext) (h.runs hnode), offset_self] at hkey
      exact absurd hkey (Nat.not_lt_zero _)

end Cycle

/-! ### The insertion of a server -/

/-- The server `x` of a cycle takes the new server `s` for its next one; `y` comes behind it. -/
structure Accepts (ns : SockaddrIn → Option DhtNode) (x : DhtNode) (y s : ServerInfo) : Prop where
  cycle : ServerCycle ns
  fresh : ns s.address = none
  accepting : ns x.self.address = some x
  behind : Runs ns y
  next : x.next = none ∧ y = x.self ∨ x.next = some y ∧
    (offset x.self.position s.position < offset x.self.position y.position ∨ y.id = x.self.id)

/-- The nodes while the new server gets to know its neighbours. -/
structure Inserted (ns : SockaddrIn → Option DhtNode) (x : DhtNode) (y s : ServerInfo)
    (parties : SockaddrIn → Option DhtNode) : Prop where
  old : ∀ a old, ns a = some old → ∃ node, parties a = some node ∧ node.self = old.self ∧
    node.next = (if a = x.self.address then some s else old.next) ∧
    (node.prev = old.prev ∨ a = y.address ∧ node.prev = some s)
  new : ∃ node, parties s.address = some node ∧ node.self = s ∧
    (node.next = none ∨ node.next = some y) ∧ (node.prev = none ∨ node.prev = some x.self)
  only : ∀ a node, parties a = some node → a = s.address ∨ ∃ old, ns a = some old

/-- The new server knows its next one. -/
def Noticed (s : ServerInfo) (parties : SockaddrIn → Option DhtNode) : Prop :=
  ∀ node, parties s.address = some node → node.next ≠ none

/-- What is in flight meanwhile. -/
def InsertionMsg (x : DhtNode) (y s : ServerInfo) (parties : SockaddrIn → Option DhtNode)
    (d : Datagram SockaddrIn IntlMsg) : Prop :=
  match d.payload with
  | ⟨.join, _⟩ => False
  | ⟨.notify, z⟩ => d.dst = s.address ∧ (z = y ∨ (z = s ∨ z.id = y.id) ∧ Noticed s parties) ∨
      d.dst = x.self.address ∧ z = x.self
  | ⟨.stabilize, w⟩ => d.dst = s.address ∧ w = x.self ∨
      d.dst = y.address ∧ w = s ∧ Noticed s parties

structure Inserting (ns : SockaddrIn → Option DhtNode) (x : DhtNode) (y s : ServerInfo)
    (chord : Chord) : Prop extends Inserted ns x y s chord.parties where
  messages : ∀ d ∈ chord.inFlight, InsertionMsg x y s chord.parties d
  notice : ¬Noticed s chord.parties →
    ∃ d ∈ chord.inFlight, d.dst = s.address ∧ d.payload = ⟨.notify, y⟩

section Insertion

variable {ns parties : SockaddrIn → Option DhtNode} {x p p' : DhtNode} {y s : ServerInfo} {chord : Chord}
  {d : Datagram SockaddrIn IntlMsg} {rest : List (Datagram SockaddrIn IntlMsg)} {a : SockaddrIn}

theorem Accepts.ne_of_runs (h : Accepts ns x y s) {srv : ServerInfo} (hsrv : Runs ns srv) :
    srv.address ≠ s.address := by
  intro heq
  obtain ⟨node, hnode⟩ := hsrv.exists_node
  rw [heq, h.fresh] at hnode
  cases hnode

theorem Accepts.runs (h : Accepts ns x y s) : Runs ns x.self := ⟨x, h.accepting, rfl⟩

/-- The new server as it is found at its address. -/
theorem Inserted.at_new (h : Inserted ns x y s parties) (hp : parties a = some p) (ha : a = s.address) :
    p.self = s ∧ (p.next = none ∨ p.next = some y) ∧ (p.prev = none ∨ p.prev = some x.self) := by
  obtain ⟨node, hnode, hrest⟩ := h.new
  rw [← ha, hp] at hnode
  cases hnode
  exact hrest

/-- A server of the old cycle as it is found at its address. -/
theorem Inserted.at_old (h : Inserted ns x y s parties) (hp : parties a = some p) {old : DhtNode}
    (hold : ns a = some old) : p.self = old.self ∧
      p.next = (if a = x.self.address then some s else old.next) ∧
      (p.prev = old.prev ∨ a = y.address ∧ p.prev = some s) := by
  obtain ⟨node, hnode, hrest⟩ := h.old a old hold
  rw [hp] at hnode
  cases hnode
  exact hrest

/-- The new server is not further from `y` than the previous pointer of `y` leads. -/
theorem Accepts.prev_new (h : Accepts ns x y s) {old : DhtNode} {q : ServerInfo} (ha : ns a = some old)
    (hself : old.self = y) (hq : old.prev = some q) : q.id = y.id ∨
      0 < offset s.position y.position ∧ offset s.position y.position ≤ offset q.position y.position := by
  rcases h.next with ⟨halone, -⟩ | ⟨hxnext, haccept⟩
  · obtain rfl := (h.cycle.alone _ x h.accepting halone).2 a old ha
    rw [h.accepting] at ha
    cases ha
    rw [(h.cycle.alone _ x h.accepting halone).1] at hq
    cases hq
  · rw [← hself] at hxnext haccept ⊢
    rcases h.cycle.prev a old _ x q ha hq h.accepting hxnext with hid | ⟨hpos, hle⟩
    · exact .inl hid
    · right
      rcases haccept with harc | hid
      · have hway := offset_of_le harc.le
        omega
      · rw [ServerInfo.position, ServerInfo.position, hid, offset_self] at hpos
        exact absurd hpos (lt_irrefl 0)

/-- A reaction keeps what is known of the nodes. -/
theorem Inserted.update (h : Inserted ns x y s parties) (hfresh : ns s.address = none)
    (hp : parties a = some p) (hself : p'.self = p.self)
    (hnew : a = s.address → (p'.next = none ∨ p'.next = some y) ∧
      (p'.prev = none ∨ p'.prev = some x.self))
    (hold : a ≠ s.address → p'.next = p.next ∧ (p'.prev = p.prev ∨ a = y.address ∧ p'.prev = some s)) :
    Inserted ns x y s (Function.update parties a (some p')) := by
  constructor
  case old =>
    intro b old hb
    obtain ⟨node, hnode, hnodeSelf, hnext, hprev⟩ := h.old b old hb
    by_cases hba : b = a
    · subst hba
      rw [hp] at hnode
      cases hnode
      obtain ⟨hnext', hprev'⟩ := hold (ne_of_fresh hfresh hb)
      refine ⟨p', Function.update_self _ _ _, hself.trans hnodeSelf, hnext'.trans hnext, ?_⟩
      rcases hprev' with heq | hy
      · rw [heq]
        exact hprev
      · exact .inr hy
    · exact ⟨node, by rw [Function.update_of_ne hba, hnode], hnodeSelf, hnext, hprev⟩
  case new =>
    obtain ⟨node, hnode, hnodeSelf, hnext, hprev⟩ := h.new
    by_cases hsa : s.address = a
    · subst hsa
      rw [hp] at hnode
      cases hnode
      exact ⟨p', Function.update_self _ _ _, hself.trans hnodeSelf, hnew rfl⟩
    · exact ⟨node, by rw [Function.update_of_ne hsa, hnode], hnodeSelf, hnext, hprev⟩
  case only =>
    intro b node hb
    rcases update_cases hb with ⟨rfl, -⟩ | ⟨-, hb⟩
    · exact h.only _ p hp
    · exact h.only b node hb

theorem Noticed.update (h : Noticed s parties) (hp : parties a = some p)
    (hnone : p'.next = none → p.next = none) : Noticed s (Function.update parties a (some p')) := by
  intro node hnode hnext
  rcases update_cases hnode with ⟨rfl, rfl⟩ | ⟨-, hold⟩
  · exact h p hp (hnone hnext)
  · exact h node hold hnext

theorem InsertionMsg.update (h : InsertionMsg x y s parties d) (hp : parties a = some p)
    (hnone : p'.next = none → p.next = none) :
    InsertionMsg x y s (Function.update parties a (some p')) d := by
  obtain ⟨src, dst, ⟨kind, srv⟩⟩ := d
  cases kind with
  | join => exact h
  | notify =>
      refine h.imp_left (And.imp_right (Or.imp_right (And.imp_right ?_)))
      exact fun hnoticed => hnoticed.update hp hnone
  | stabilize =>
      refine h.imp_right (And.imp_right (And.imp_right ?_))
      exact fun hnoticed => hnoticed.update hp hnone

/-- What a reaction has to keep. -/
theorem Inserting.after (h : Inserting ns x y s chord) (hperm : chord.inFlight.Perm (d :: rest))
    (hp : chord.parties d.dst = some p) {sends : List (Datagram SockaddrIn IntlMsg)}
    (hinserted : Inserted ns x y s (Function.update chord.parties d.dst (some p')))
    (hnone : p'.next = none → p.next = none)
    (hnotice : Noticed s (Function.update chord.parties d.dst (some p')) ∨
      (d.dst = s.address → d.payload.kind ≠ .notify))
    (hsends : ∀ e ∈ sends, InsertionMsg x y s (Function.update chord.parties d.dst (some p')) e) :
    Inserting ns x y s ⟨Function.update chord.parties d.dst (some p'), rest ++ sends⟩ := by
  refine ⟨hinserted, fun e he => ?_, fun hnot => ?_⟩
  · rcases List.mem_append.mp he with he | he
    · exact (h.messages e (hperm.symm.subset (List.mem_cons_of_mem d he))).update hp hnone
    · exact hsends e he
  · have hother := hnotice.resolve_left hnot
    obtain ⟨e, he, hdst, hpayload⟩ := h.notice fun hnoticed => hnot (hnoticed.update hp hnone)
    rcases List.mem_cons.mp (hperm.subset he) with rfl | he
    · exact absurd (congrArg IntlMsg.kind hpayload) (hother hdst)
    · exact ⟨e, List.mem_append_left _ he, hdst, hpayload⟩

/-- A message that changes nothing and asks for nothing. -/
theorem Inserting.ignore (h : Inserting ns x y s chord) (hperm : chord.inFlight.Perm (d :: rest))
    (hp : chord.parties d.dst = some p) (heq : respond p d.payload = (p, []))
    (hnotice : p.next ≠ none ∨ d.dst ≠ s.address) :
    Inserting ns x y s ⟨Function.update chord.parties d.dst (some (respond p d.payload).1),
      rest ++ (respond p d.payload).2⟩ := by
  have hsame : Function.update chord.parties d.dst (some p) = chord.parties :=
    Function.update_eq_self_iff.mpr hp.symm
  rw [heq]
  refine h.after hperm hp (hsame.symm ▸ h.toInserted) (fun hnone => hnone) ?_ (by rintro _ ⟨⟩)
  rcases hnotice with hnext | hne
  · by_cases hdst : d.dst = s.address
    · left
      intro node hnode
      rw [hsame, ← hdst, hp] at hnode
      cases hnode
      exact hnext
    · exact .inr fun heq => absurd heq hdst
  · exact .inr fun heq => absurd heq hne

/-- The new server gets a notice: the first one is of the server behind it, the others have no effect. -/
theorem Inserting.notify_new (h : Inserting ns x y s chord) (ha : Accepts ns x y s)
    (hperm : chord.inFlight.Perm (d :: rest)) (hp : chord.parties d.dst = some p) {z : ServerInfo}
    (hd : d.payload = ⟨.notify, z⟩) (hdst : d.dst = s.address)
    (hz : z = y ∨ (z = s ∨ z.id = y.id) ∧ Noticed s chord.parties) :
    Inserting ns x y s ⟨Function.update chord.parties d.dst (some (respond p d.payload).1),
      rest ++ (respond p d.payload).2⟩ := by
  obtain ⟨hself, hnext, hprev⟩ := h.at_new hp hdst
  cases hpnext : p.next with
  | none =>
      obtain rfl : z = y := hz.resolve_right fun hlate => hlate.2 p (hdst ▸ hp) hpnext
      have hnoticed : Noticed s (Function.update chord.parties d.dst (some (p.link z))) := by
        intro node hnode
        rw [← hdst, Function.update_self] at hnode
        cases hnode
        exact Option.some_ne_none z
      rw [hd, respond_notify_accept hpnext]
      refine h.after hperm hp (h.toInserted.update ha.fresh hp rfl (fun _ => ⟨.inr rfl, hprev⟩)
        fun hne => absurd hdst hne) (by rintro ⟨⟩) (.inl hnoticed) fun e he => ?_
      rw [List.mem_singleton] at he
      subst he
      exact .inr ⟨rfl, hself, hnoticed⟩
  | some y' =>
      rw [hpnext] at hnext
      obtain rfl : y' = y := by simpa using hnext
      refine h.ignore hperm hp ?_ (.inl (by rw [hpnext]; exact Option.some_ne_none y'))
      rw [hd]
      apply respond_notify_ignore hpnext
      have hsame : z.id = y'.id → isInRange p.self y' z = false := by
        intro hid
        rw [← Bool.not_eq_true, isInRange_iff, ServerInfo.position, ServerInfo.position,
          ServerInfo.position, hid]
        exact lt_irrefl _
      rcases hz with rfl | ⟨rfl | hid, -⟩
      · exact .inr (hsame rfl)
      · exact .inl (by rw [hself])
      · exact .inr (hsame hid)

/-- The server that has accepted the new one ignores the notice of itself. -/
theorem Inserting.notify_accepting (h : Inserting ns x y s chord) (ha : Accepts ns x y s)
    (hperm : chord.inFlight.Perm (d :: rest)) (hp : chord.parties d.dst = some p)
    (hd : d.payload = ⟨.notify, x.self⟩) (hdst : d.dst = x.self.address) :
    Inserting ns x y s ⟨Function.update chord.parties d.dst (some (respond p d.payload).1),
      rest ++ (respond p d.payload).2⟩ := by
  obtain ⟨hself, hnext, -⟩ := h.at_old hp (hdst ▸ ha.accepting)
  rw [if_pos hdst] at hnext
  refine h.ignore hperm hp ?_ (.inl (by rw [hnext]; exact Option.some_ne_none s))
  rw [hd]
  exact respond_notify_ignore hnext (.inl (by rw [hself]))

/-- The new server gets to know the one before it. -/
theorem Inserting.stabilize_new (h : Inserting ns x y s chord) (ha : Accepts ns x y s)
    (hperm : chord.inFlight.Perm (d :: rest)) (hp : chord.parties d.dst = some p)
    (hd : d.payload = ⟨.stabilize, x.self⟩) (hdst : d.dst = s.address) :
    Inserting ns x y s ⟨Function.update chord.parties d.dst (some (respond p d.payload).1),
      rest ++ (respond p d.payload).2⟩ := by
  obtain ⟨hself, hnext, hprev⟩ := h.at_new hp hdst
  obtain ⟨q, heq, hq⟩ := respond_stabilize_cases (p := p) (w := x.self)
  obtain rfl : q = x.self := by
    rcases hq with ⟨hq, -⟩ | ⟨hq, -⟩
    · rw [hq] at hprev
      simpa using hprev
    · exact hq
  have hnotice : d.payload.kind ≠ .notify := by
    rw [hd]
    rintro ⟨⟩
  rw [hd, heq]
  refine h.after hperm hp (h.toInserted.update ha.fresh hp rfl (fun _ => ⟨hnext, .inr rfl⟩)
    fun hne => absurd hdst hne) (fun hnone => hnone) (.inr fun _ => hnotice) fun e he => ?_
  rw [List.mem_singleton] at he
  subst he
  exact .inr ⟨rfl, rfl⟩

/-- The server behind the new one takes it for its previous one, or has another one with its own id. -/
theorem Inserting.stabilize_behind (h : Inserting ns x y s chord) (ha : Accepts ns x y s)
    (hperm : chord.inFlight.Perm (d :: rest)) (hp : chord.parties d.dst = some p)
    (hd : d.payload = ⟨.stabilize, s⟩) (hdst : d.dst = y.address) (hnoticed : Noticed s chord.parties) :
    Inserting ns x y s ⟨Function.update chord.parties d.dst (some (respond p d.payload).1),
      rest ++ (respond p d.payload).2⟩ := by
  have hys : d.dst ≠ s.address := hdst ▸ ha.ne_of_runs ha.behind
  obtain ⟨old, hold, holdSelf⟩ := ha.behind
  obtain ⟨hself, -, hprev⟩ := h.at_old hp (hdst ▸ hold)
  obtain ⟨q, heq, hq⟩ := respond_stabilize_cases (p := p) (w := s)
  have hkept : p.prev = some q ∨ q = s := hq.imp And.left And.left
  have hid : q = s ∨ q.id = y.id := by
    rcases hq with ⟨hq, hout⟩ | ⟨hq, -⟩
    swap
    · exact .inl hq
    rcases hprev with hsame | ⟨-, hnew⟩
    swap
    · rw [hq] at hnew
      exact .inl (Option.some.inj hnew)
    rw [hq] at hsame
    refine .inr ((ha.prev_new hold holdSelf hsame.symm).resolve_right fun hnot => ?_)
    rw [← Bool.not_eq_true, isInRange_iff, hself, holdSelf] at hout
    exact hout (offset_lt_of_arc hnot.1 hnot.2)
  have hnotice : d.payload.kind ≠ .notify := by
    rw [hd]
    rintro ⟨⟩
  have hnone : ({ p with prev := some q } : DhtNode).next = none → p.next = none := fun hnone => hnone
  rw [hd, heq]
  refine h.after hperm hp (h.toInserted.update ha.fresh hp rfl (fun hs => absurd hs hys) fun _ => ⟨rfl, ?_⟩)
    hnone (.inr fun _ => hnotice) fun e he => ?_
  · rcases hkept with hkept | rfl
    · exact .inl hkept.symm
    · exact .inr ⟨hdst, rfl⟩
  · rw [List.mem_singleton] at he
    subst he
    exact .inl ⟨rfl, .inr ⟨hid, hnoticed.update hp hnone⟩⟩

/-- Every delivery keeps what is known of the insertion. -/
theorem Inserting.deliver (h : Inserting ns x y s chord) (ha : Accepts ns x y s)
    (hperm : chord.inFlight.Perm (d :: rest)) (hp : chord.parties d.dst = some p) :
    Inserting ns x y s ⟨Function.update chord.parties d.dst (some (respond p d.payload).1),
      rest ++ (respond p d.payload).2⟩ := by
  have hmsg := h.messages d (hperm.symm.subset List.mem_cons_self)
  obtain ⟨kind, z, hd⟩ : ∃ kind z, d.payload = ⟨kind, z⟩ := ⟨_, _, rfl⟩
  rw [InsertionMsg, hd] at hmsg
  cases kind with
  | join => exact absurd hmsg not_false
  | notify =>
      rcases hmsg with ⟨hdst, hz⟩ | ⟨hdst, rfl⟩
      · exact h.notify_new ha hperm hp hd hdst hz
      · exact h.notify_accepting ha hperm hp hd hdst
  | stabilize =>
      rcases hmsg with ⟨hdst, rfl⟩ | ⟨hdst, rfl, hnoticed⟩
      · exact h.stabilize_new ha hperm hp hd hdst
      · exact h.stabilize_behind ha hperm hp hd hdst hnoticed

/-- Only `x` comes before `y`. -/
theorem Accepts.eq_of_next (h : Accepts ns x y s) {node : DhtNode} (ha : ns a = some node)
    (hnext : node.next = some y) : a = x.self.address := by
  rcases h.next with ⟨halone, -⟩ | ⟨hxnext, -⟩
  · exact (h.cycle.alone _ x h.accepting halone).2 a node ha
  · exact h.cycle.injective _ _ _ _ y ha h.accepting hnext hxnext

/-- Nothing in the old cycle leads to the new server. -/
theorem Accepts.ne_new (h : Accepts ns x y s) {old : DhtNode} (ha : ns a = some old) :
    old.self ≠ s ∧ old.next ≠ some s :=
  ⟨fun heq => h.ne_of_runs (h.cycle.runs ha) (congrArg ServerInfo.address heq),
    fun heq => h.ne_of_runs (h.cycle.next a old s ha heq) rfl⟩

/-- A node is that of the new server or an old one. -/
theorem Inserted.cases (h : Inserted ns x y s parties) (hnew : Noticed s parties) {node : DhtNode}
    (ha : parties a = some node) :
    a = s.address ∧ node.self = s ∧ node.next = some y ∧ (node.prev = none ∨ node.prev = some x.self) ∨
      ∃ old, ns a = some old ∧ node.self = old.self ∧
        node.next = (if a = x.self.address then some s else old.next) ∧
        (node.prev = old.prev ∨ a = y.address ∧ node.prev = some s) := by
  rcases h.only a node ha with rfl | ⟨old, hold⟩
  · obtain ⟨hself, hnext, hprev⟩ := h.at_new ha rfl
    exact .inl ⟨rfl, hself, hnext.resolve_left (hnew node ha), hprev⟩
  · exact .inr ⟨old, hold, h.at_old ha hold⟩

theorem Inserted.runs (h : Inserted ns x y s parties) (hfresh : ns s.address = none)
    {srv : ServerInfo} : Runs parties srv ↔ srv = s ∨ Runs ns srv := by
  constructor
  · rintro ⟨node, hnode, rfl⟩
    rcases h.only _ node hnode with heq | ⟨old, hold⟩
    · exact .inl (h.at_new hnode heq).1
    · exact .inr ⟨old, hold, (h.at_old hnode hold).1.symm⟩
  · rintro (rfl | ⟨old, hold, hself⟩)
    · obtain ⟨snode, hsnode, hself, -⟩ := h.new
      exact ⟨snode, hsnode, hself⟩
    · obtain ⟨node, hnode, hself', -⟩ := h.old _ old hold
      exact ⟨node, hnode, hself'.trans hself⟩

theorem Inserted.address (h : Inserted ns x y s parties) (ha : Accepts ns x y s) (hnew : Noticed s parties)
    {b : SockaddrIn} {node : DhtNode} (hb : parties b = some node) : node.self.address = b := by
  rcases h.cases hnew hb with ⟨rfl, hself, -⟩ | ⟨old, hold, hself, -⟩
  · rw [hself]
  · rw [hself, ha.cycle.address b old hold]

/-- Only `x` comes before the new server. -/
theorem Inserted.before_new (h : Inserted ns x y s parties) (ha : Accepts ns x y s) (hnew : Noticed s parties)
    {c : SockaddrIn} {before : DhtNode} (hc : parties c = some before) (hnext : before.next = some s) :
    before.self = x.self := by
  rcases h.cases hnew hc with ⟨-, -, hy, -⟩ | ⟨old, hold, hself, hkept, -⟩
  · rw [hnext] at hy
    exact absurd (congrArg ServerInfo.address (Option.some.inj hy)).symm (ha.ne_of_runs ha.behind)
  · rw [hnext] at hkept
    split at hkept
    · rename_i hcx
      rw [hcx, ha.accepting] at hold
      cases hold
      exact hself
    · exact absurd hkept.symm (ha.ne_new hold).2

/-- Only the new server comes before `y`. -/
theorem Inserted.before_behind (h : Inserted ns x y s parties) (ha : Accepts ns x y s)
    (hnew : Noticed s parties) {c : SockaddrIn} {before : DhtNode} (hc : parties c = some before)
    (hnext : before.next = some y) : before.self = s := by
  rcases h.cases hnew hc with ⟨-, hself, -⟩ | ⟨old, hold, -, hkept, -⟩
  · exact hself
  · rw [hnext] at hkept
    split at hkept
    · exact absurd (congrArg ServerInfo.address (Option.some.inj hkept)) (ha.ne_of_runs ha.behind)
    · exact absurd (ha.eq_of_next hold hkept.symm) ‹_›

/-- Different servers have different next ones. -/
theorem Inserted.injective (h : Inserted ns x y s parties) (ha : Accepts ns x y s)
    (hnew : Noticed s parties) {b c : SockaddrIn} {node other : DhtNode} {z : ServerInfo}
    (hb : parties b = some node) (hc : parties c = some other) (hbz : node.next = some z)
    (hcz : other.next = some z) : b = c := by
  have hsame (heq : node.self = other.self) : b = c := by
    rw [← h.address ha hnew hb, ← h.address ha hnew hc, heq]
  by_cases hzs : z = s
  · subst hzs
    exact hsame ((h.before_new ha hnew hb hbz).trans (h.before_new ha hnew hc hcz).symm)
  by_cases hzy : z = y
  · subst hzy
    exact hsame ((h.before_behind ha hnew hb hbz).trans (h.before_behind ha hnew hc hcz).symm)
  have hkept {d : SockaddrIn} {old : DhtNode} (hd : parties d = some old) (hz : old.next = some z) :
      ∃ old, ns d = some old ∧ old.next = some z := by
    rcases h.cases hnew hd with ⟨-, -, hnext, -⟩ | ⟨old, hold, -, hnext, -⟩ <;> rw [hz] at hnext
    · exact absurd (Option.some.inj hnext) hzy
    · split at hnext
      · exact absurd (Option.some.inj hnext) hzs
      · exact ⟨old, hold, hnext.symm⟩
  obtain ⟨old, hold, hnext⟩ := hkept hb hbz
  obtain ⟨old', hold', hnext'⟩ := hkept hc hcz
  exact ha.cycle.injective b c old old' z hold hold' hnext hnext'

/-- The walks of the old cycle lead over the new server. -/
theorem Inserted.walk (h : Inserted ns x y s parties) (ha : Accepts ns x y s) (hnew : Noticed s parties)
    {b c : ServerInfo} (hwalk : ReflTransGen (NextTo ns) b c) : ReflTransGen (NextTo parties) b c := by
  obtain ⟨snode, hsnode, hself, hnext, -⟩ := h.new
  have hsy : NextTo parties s y := ⟨snode, hsnode, hself, hnext.resolve_left (hnew snode hsnode)⟩
  refine hwalk.trans_induction_on (fun _ => .refl) (fun {u v} hstep => ?_) fun _ _ => .trans
  obtain ⟨old, hold, holdSelf, holdNext⟩ := hstep
  obtain ⟨node, hnode, hnodeSelf, hnodeNext, -⟩ := h.old _ old hold
  by_cases hux : u.address = x.self.address
  · rw [if_pos hux] at hnodeNext
    have hvy : v = y := by
      rw [hux, ha.accepting] at hold
      cases hold
      rcases ha.next with ⟨halone, -⟩ | ⟨hxnext, -⟩
      · rw [halone] at holdNext
        cases holdNext
      · exact Option.some.inj (holdNext.symm.trans hxnext)
    rw [hvy]
    exact .head ⟨node, hnode, hnodeSelf.trans holdSelf, hnodeNext⟩ (.single hsy)
  · rw [if_neg hux] at hnodeNext
    exact .single ⟨node, hnode, hnodeSelf.trans holdSelf, hnodeNext.trans holdNext⟩

theorem Inserted.connected (h : Inserted ns x y s parties) (ha : Accepts ns x y s)
    (hnew : Noticed s parties) {b c : ServerInfo} (hb : Runs parties b) (hc : Runs parties c) :
    ReflTransGen (NextTo parties) b c := by
  obtain ⟨snode, hsnode, hself, hnext, -⟩ := h.new
  have hsy : NextTo parties s y := ⟨snode, hsnode, hself, hnext.resolve_left (hnew snode hsnode)⟩
  obtain ⟨xnode, hxnode, hxself, hxnext, -⟩ := h.old _ x ha.accepting
  rw [if_pos rfl] at hxnext
  have hxs : NextTo parties x.self s := ⟨xnode, hxnode, hxself, hxnext⟩
  rcases (h.runs ha.fresh).mp hb with rfl | hb <;> rcases (h.runs ha.fresh).mp hc with rfl | hc
  · exact .refl
  · exact .head hsy (h.walk ha hnew (ha.cycle.connected y c ha.behind hc))
  · exact .tail (h.walk ha hnew (ha.cycle.connected b x.self hb ha.runs)) hxs
  · exact h.walk ha hnew (ha.cycle.connected b c hb hc)

/-- The previous pointers are those of the old cycle, or lead to the server before. -/
theorem Inserted.prev (h : Inserted ns x y s parties) (ha : Accepts ns x y s) (hnew : Noticed s parties)
    {b c : SockaddrIn} {node before : DhtNode} {q : ServerInfo} (hb : parties b = some node)
    (hq : node.prev = some q) (hc : parties c = some before) (hbefore : before.next = some node.self) :
    q.id = node.self.id ∨ 0 < offset before.self.position node.self.position ∧
      offset before.self.position node.self.position ≤ offset q.position node.self.position := by
  have hdirect (heq : q = before.self) : q.id = node.self.id ∨
      0 < offset before.self.position node.self.position ∧
        offset before.self.position node.self.position ≤ offset q.position node.self.position := by
    by_cases hid : q.id = node.self.id
    · exact .inl hid
    · rw [heq] at hid ⊢
      exact .inr ⟨offset_pos fun hposition => hid (UInt16.toFin_inj.mp hposition), le_rfl⟩
  rcases h.cases hnew hb with ⟨-, hself, -, hprev⟩ | ⟨old, hold, hself, -, hsame | ⟨hby, hprev⟩⟩
  · -- the new server knows `x`
    apply hdirect
    rw [h.before_new ha hnew hc (hself ▸ hbefore)]
    rw [hq] at hprev
    simpa using hprev
  · rcases h.cases hnew hc with ⟨-, hbeforeSelf, hnext, -⟩ | ⟨old', hold', hbeforeSelf, hnext, -⟩
    · rw [hbefore] at hnext
      obtain rfl : node.self = y := Option.some.inj hnext
      rw [hbeforeSelf]
      exact ha.prev_new hold hself.symm (hsame.symm.trans hq)
    · rw [hbefore, hself] at hnext
      split at hnext
      · exact absurd (Option.some.inj hnext) (ha.ne_new hold).1
      · rw [hbeforeSelf, hself]
        exact ha.cycle.prev b old c old' q hold (hsame.symm.trans hq) hold' hnext.symm
  · -- `y` knows the new server
    obtain ⟨ynode, hynode, hyself⟩ := ha.behind
    rw [← hby, hold] at hynode
    cases hynode
    apply hdirect
    rw [h.before_behind ha hnew hc (hyself ▸ hself ▸ hbefore)]
    exact Option.some.inj (hq.symm.trans hprev)

/-- The new server has taken its place in the cycle. -/
theorem Inserted.cycle (h : Inserted ns x y s parties) (ha : Accepts ns x y s) (hnew : Noticed s parties) :
    ServerCycle parties where
  address := fun _ _ hb => h.address ha hnew hb
  next := by
    intro b node z hb hz
    rw [h.runs ha.fresh]
    rcases h.cases hnew hb with ⟨rfl, -, hnext, -⟩ | ⟨old, hold, -, hnext, -⟩
    · rw [hz] at hnext
      cases hnext
      exact .inr ha.behind
    · rw [hz] at hnext
      split at hnext
      · exact .inl (Option.some.inj hnext)
      · exact .inr (ha.cycle.next b old z hold hnext.symm)
  alone := by
    intro b node hb hnone
    rcases h.cases hnew hb with ⟨rfl, -, hnext, -⟩ | ⟨old, hold, -, hnext, -⟩ <;> rw [hnone] at hnext
    · cases hnext
    · split at hnext
      · cases hnext
      · rename_i hbx
        exact absurd ((ha.cycle.alone b old hold hnext.symm).2 _ x ha.accepting).symm hbx
  injective := fun _ _ _ _ _ hb hc hbz hcz => h.injective ha hnew hb hc hbz hcz
  connected := fun _ _ hb hc => h.connected ha hnew hb hc
  prev := fun _ _ _ _ _ hb hq hc hbefore => h.prev ha hnew hb hq hc hbefore

end Insertion

/-! ### Joins one after the other -/

/-- A new server looks for its place, or takes it. -/
inductive Joining (ns : SockaddrIn → Option DhtNode) (s : ServerInfo) (chord : Chord) : Prop where
  | waiting {a : SockaddrIn} {p : DhtNode} (hp : ns a = some p) (h : Waiting ns s a chord)
  | inserting {x : DhtNode} {y : ServerInfo} (ha : Accepts ns x y s) (h : Inserting ns x y s chord)

section Joins

variable {ns : SockaddrIn → Option DhtNode} {x p : DhtNode} {y s srv : ServerInfo} {chord next : Chord}
  {d : Datagram SockaddrIn IntlMsg} {a : SockaddrIn}

/-- What is known when the JOIN message has been accepted. -/
theorem Accepts.inserting (h : Accepts ns x y s) (hparties : chord.parties = Function.update
      (Function.update ns s.address (some ⟨s, none, none⟩)) x.self.address (some (x.link s)))
    (hflight : chord.inFlight = x.welcome y s) : Inserting ns x y s chord := by
  have hxs := h.ne_of_runs h.runs
  have hsnode : chord.parties s.address = some ⟨s, none, none⟩ := by
    rw [hparties, Function.update_of_ne hxs.symm, Function.update_self]
  refine ⟨⟨fun b old hb => ?_, ⟨_, hsnode, rfl, .inl rfl, .inl rfl⟩, fun b node hb => ?_⟩, fun e he => ?_,
    fun _ => ?_⟩
  · have hbs : b ≠ s.address := by
      rintro rfl
      rw [h.fresh] at hb
      cases hb
    by_cases hbx : b = x.self.address
    · rw [hbx, h.accepting] at hb
      cases hb
      exact ⟨x.link s, by rw [hparties, hbx, Function.update_self], rfl, (if_pos hbx).symm, .inl rfl⟩
    · refine ⟨old, ?_, rfl, (if_neg hbx).symm, .inl rfl⟩
      rw [hparties, Function.update_of_ne hbx, Function.update_of_ne hbs, hb]
  · rw [hparties] at hb
    rcases update_cases hb with ⟨rfl, -⟩ | ⟨-, hb⟩
    · exact .inr ⟨x, h.accepting⟩
    · rcases update_cases hb with ⟨rfl, -⟩ | ⟨-, hb⟩
      · exact .inl rfl
      · exact .inr ⟨node, hb⟩
  · rw [hflight, DhtNode.welcome, List.mem_cons, List.mem_singleton] at he
    rcases he with rfl | rfl
    · exact .inl ⟨rfl, .inl rfl⟩
    · exact .inl ⟨rfl, rfl⟩
  · rw [hflight]
    exact ⟨_, List.mem_cons_self, rfl, rfl⟩

/-- The JOIN message is accepted or sent on to the next server. -/
theorem ServerCycle.join_step (h : ServerCycle ns) (hfresh : ns s.address = none) (hp : ns a = some p)
    (hparties : next.parties = Function.update (Function.update ns s.address (some ⟨s, none, none⟩)) a
      (some (respond p ⟨.join, s⟩).1))
    (hflight : next.inFlight = (respond p ⟨.join, s⟩).2) : Joining ns s next := by
  obtain rfl : p.self.address = a := h.address a p hp
  have haccept {y : ServerInfo} (ha : Accepts ns p y s)
      (heq : respond p ⟨.join, s⟩ = (p.link s, p.welcome y s)) : Joining ns s next := by
    rw [heq] at hparties hflight
    exact .inserting ha (ha.inserting hparties hflight)
  cases hnext : p.next with
  | none => exact haccept ⟨h, hfresh, hp, ⟨p, hp, rfl⟩, .inl ⟨hnext, rfl⟩⟩ (by simp only [respond, hnext])
  | some y =>
      have hy := h.next _ p y hp hnext
      by_cases hrange : isInRange p.self y s = true ∨ y.id = p.self.id
      · refine haccept ⟨h, hfresh, hp, hy, .inr ⟨hnext, ?_⟩⟩ ?_
        · rwa [← isInRange_iff]
        · simp [respond, hnext, hrange]
      · rw [not_or, Bool.not_eq_true] at hrange
        rw [respond_join_forward hnext hrange.1 hrange.2] at hparties hflight
        obtain ⟨ynode, hynode⟩ := hy.exists_node
        refine .waiting hynode ⟨?_, _, hflight⟩
        rw [hparties]
        apply Function.update_eq_self_iff.mpr
        rw [Function.update_of_ne (ne_of_fresh hfresh hp), hp]

theorem Joining.deliver (h : Joining ns s chord) (hcycle : ServerCycle ns) (hfresh : ns s.address = none)
    (hstep : ChordStep chord ((), d) next) : Joining ns s next := by
  obtain ⟨rest, p, hperm, hp, rfl⟩ := hstep.elim
  cases h with
  | waiting hq hwaiting =>
      obtain ⟨hparties, src, hflight⟩ := hwaiting
      rw [hflight] at hperm
      obtain ⟨rfl, rfl⟩ : d = _ ∧ rest = [] := by
        simpa using List.perm_singleton.mp hperm.symm
      rw [hparties, Function.update_of_ne (ne_of_fresh hfresh hq), hq] at hp
      cases hp
      refine hcycle.join_step hfresh hq ?_ rfl
      change Function.update chord.parties _ _ = _
      rw [hparties]
  | inserting ha hinserting => exact .inserting ha (hinserting.deliver ha hperm hp)

/-- When nothing is in flight, the servers form a cycle again. -/
theorem Joining.quiet (h : Joining ns s chord) (hquiet : chord.inFlight = []) :
    ServerCycle chord.parties ∧ ∀ srv, Runs chord.parties srv ↔ srv = s ∨ Runs ns srv := by
  cases h with
  | waiting _ hwaiting =>
      obtain ⟨src, hflight⟩ := hwaiting.inFlight
      rw [hquiet] at hflight
      cases hflight
  | inserting ha hinserting =>
      have hnoticed : Noticed s chord.parties := by
        by_contra hnot
        obtain ⟨d, hd, -⟩ := hinserting.notice hnot
        rw [hquiet] at hd
        cases hd
      exact ⟨hinserting.cycle ha hnoticed, fun srv => hinserting.runs ha.fresh⟩

end Joins

/-- A server with a new address and any id registers with a running one, and everything is delivered. -/
inductive JoinStep : System → ServerInfo × SockaddrIn → System → Prop where
  | mk {sys next : System} {self : ServerInfo} {registration : SockaddrIn}
      {steps : List ((Nat → UInt8) × Datagram SockaddrIn Bytes)} (hfresh : nodes sys self.address = none)
      (hregistration : ∃ node, nodes sys registration = some node)
      (hrun : Run ServerStep (join sys self registration) steps next) (hquiet : next.inFlight = []) :
      JoinStep sys (self, registration) next

section Runs

variable {chord : Chord} {self : ServerInfo} {registration : SockaddrIn} {sys : System}

theorem JoinStep.cycle (h : ServerCycle chord.parties) (hflight : chord.inFlight = [])
    (hstep : JoinStep chord.startup (self, registration) sys) :
    ∃ c : Chord, sys = c.startup ∧ c.inFlight = [] ∧ ServerCycle c.parties ∧
      ∀ srv, Runs c.parties srv ↔ srv = self ∨ Runs chord.parties srv := by
  obtain ⟨hfresh, ⟨p, hp⟩, hrun, hquiet⟩ := hstep
  rw [nodes_toSystem] at hfresh hp
  rw [join_startup] at hrun
  have hinv (sys next : System) (event : (Nat → UInt8) × Datagram SockaddrIn Bytes)
      (hjoining : ∃ c : Chord, sys = c.startup ∧ Joining chord.parties self c)
      (hstep : ServerStep sys event next) : ∃ c : Chord, next = c.startup ∧ Joining chord.parties self c := by
    obtain ⟨c, rfl, hc⟩ := hjoining
    obtain ⟨m, c', hc', -, rfl⟩ := Chord.step_of_serverStep _ hstep
    exact ⟨c', rfl, hc.deliver h hfresh hc'⟩
  have hstart : Joining chord.parties self (chord.start self registration) :=
    .waiting hp ⟨rfl, self.address, by rw [Chord.start, hflight, List.nil_append]⟩
  obtain ⟨c, rfl, hc⟩ := hrun.invariant (fun s a t hs ht => hinv s t a hs ht) ⟨_, rfl, hstart⟩
  have hcquiet : c.inFlight = [] := List.map_eq_nil_iff.mp hquiet
  obtain ⟨hcycle, hruns⟩ := hc.quiet hcquiet
  exact ⟨c, rfl, hcquiet, hcycle, hruns⟩

/-- After every sequence of joins the servers form a cycle. -/
theorem ServerCycle.run (h : ServerCycle chord.parties) (hflight : chord.inFlight = [])
    {joins : List (ServerInfo × SockaddrIn)} (hrun : Run JoinStep chord.startup joins sys) :
    ∃ c : Chord, sys = c.startup ∧ c.inFlight = [] ∧ ServerCycle c.parties ∧
      ∀ srv, Runs c.parties srv ↔ Runs chord.parties srv ∨ srv ∈ joins.map Prod.fst := by
  generalize hstart : chord.startup = start at hrun
  induction hrun generalizing chord with
  | nil => exact ⟨chord, hstart.symm, hflight, h, fun srv => by simp⟩
  | @cons _ _ _ join _ hstep _ ih =>
      obtain ⟨self, registration⟩ := join
      subst hstart
      obtain ⟨c, rfl, hcflight, hcycle, hruns⟩ := JoinStep.cycle h hflight hstep
      obtain ⟨c', rfl, hcflight', hcycle', hruns'⟩ := ih hcycle hcflight rfl
      refine ⟨c', rfl, hcflight', hcycle', fun srv => ?_⟩
      rw [hruns', hruns, List.map_cons, List.mem_cons, or_comm (a := srv = self), or_assoc]

theorem serverCycle_create (creator : ServerInfo) : ServerCycle (Chord.create creator).parties := by
  have honly {a : SockaddrIn} {node : DhtNode} (ha : (Chord.create creator).parties a = some node) :=
    Chord.create_parties ha
  constructor
  case address => exact (distinctServers_create creator).address
  case next =>
    intro a node y ha hnext
    obtain ⟨-, rfl⟩ := honly ha
    cases hnext
  case alone =>
    intro a node ha _
    obtain ⟨rfl, rfl⟩ := honly ha
    exact ⟨rfl, fun b other hb => (honly hb).1⟩
  case injective =>
    intro a b node other y ha _ hnext
    obtain ⟨-, rfl⟩ := honly ha
    cases hnext
  case connected =>
    rintro a b ⟨node, hnode, rfl⟩ ⟨other, hother, rfl⟩
    obtain ⟨-, rfl⟩ := honly hnode
    obtain ⟨-, rfl⟩ := honly hother
    exact .refl
  case prev =>
    intro a node b before q ha hprev
    obtain ⟨-, rfl⟩ := honly ha
    cases hprev

theorem runs_create (creator srv : ServerInfo) :
    Runs (Chord.create creator).parties srv ↔ srv = creator := by
  constructor
  · rintro ⟨node, hnode, rfl⟩
    rw [(Chord.create_parties hnode).2]
  · rintro rfl
    exact ⟨⟨srv, none, none⟩, by simp [Chord.create], rfl⟩

/-- The first server to join has another address than the creator. -/
theorem joins_cases {creator : ServerInfo} {joins : List (ServerInfo × SockaddrIn)}
    (hrun : Run JoinStep (Chord.create creator).startup joins sys) :
    joins = [] ∧ sys = (Chord.create creator).startup ∨ ∃ j ∈ joins, creator.address ≠ j.1.address := by
  cases hrun with
  | nil => exact .inl ⟨rfl, rfl⟩
  | @cons _ _ _ join _ hstep _ =>
      refine .inr ⟨join, List.mem_cons_self, fun heq => ?_⟩
      cases hstep with
      | mk hfresh _ _ _ =>
          obtain ⟨node, hnode, -⟩ := (runs_create creator creator).mpr rfl
          rw [nodes_toSystem, ← heq, hnode] at hfresh
          cases hfresh

/-- The ring after a sequence of joins. -/
theorem ServerCycle.of_joins {creator : ServerInfo} {joins : List (ServerInfo × SockaddrIn)}
    (hrun : Run JoinStep (createChord creator) joins sys) : ServerCycle (nodes sys) ∧
      ∀ srv, Runs (nodes sys) srv ↔ srv = creator ∨ ∃ j ∈ joins, j.1 = srv := by
  rw [createChord_eq] at hrun
  obtain ⟨c, rfl, -, hcycle, hruns⟩ := (serverCycle_create creator).run rfl hrun
  rw [nodes_toSystem]
  refine ⟨hcycle, fun srv => ?_⟩
  rw [hruns, runs_create, List.mem_map]

/-- Several servers with one id. -/
theorem not_owns_of_same_ids {creator : ServerInfo} {joins : List (ServerInfo × SockaddrIn)}
    (hrun : Run JoinStep (createChord creator) joins sys) (hne : joins ≠ [])
    (hsame : ∀ j ∈ joins, j.1.id = creator.id) (owner : ServerInfo) (key : Bytes) :
    ¬Owns (nodes sys) owner key := by
  obtain ⟨hcycle, hruns⟩ := ServerCycle.of_joins hrun
  have hid (srv : ServerInfo) (hsrv : Runs (nodes sys) srv) : srv.id = creator.id := by
    rcases (hruns srv).mp hsrv with rfl | ⟨j, hj, rfl⟩
    · rfl
    · exact hsame j hj
  obtain ⟨j, hj, haddress⟩ := (joins_cases (createChord_eq creator ▸ hrun)).resolve_left
    fun hnil => hne hnil.1
  exact hcycle.not_owns ((hruns creator).mpr (.inl rfl)) ((hruns j.1).mpr (.inr ⟨j, hj, rfl⟩)) haddress
    (fun b b' hb hb' => (hid b hb).trans (hid b' hb').symm) owner key

end Runs

/-- **Requests reach an owner exactly when not all ids are the same.** After every sequence of joins,
each with everything delivered, a request for any key that is sent to any server reaches an owner after
finitely many forwards, if and only if there is only one server or two of them have different ids. -/
theorem request_reaches_owner_iff (creator : ServerInfo) (joins : List (ServerInfo × SockaddrIn))
    (sys : System) (hrun : Run JoinStep (createChord creator) joins sys) (key : Bytes) (a : SockaddrIn)
    (node : DhtNode) (hnode : nodes sys a = some node) :
    (∃ k owner, Forwarded (nodes sys) key node.self k owner) ↔
      joins = [] ∨ ∃ j ∈ joins, j.1.id ≠ creator.id := by
  obtain ⟨hcycle, hruns⟩ := ServerCycle.of_joins hrun
  constructor
  · rintro ⟨k, owner, hforwarded⟩
    by_contra hsame
    push Not at hsame
    exact not_owns_of_same_ids hrun hsame.1 hsame.2 owner key hforwarded.owns
  · have hsrv := hcycle.runs hnode
    rintro (rfl | ⟨j, hj, hid⟩)
    · cases hrun
      rw [createChord_eq, nodes_toSystem] at hnode ⊢
      obtain ⟨rfl, rfl⟩ := Chord.create_parties hnode
      exact ⟨0, creator, .process hnode (isKeyInRange_of_next_none rfl key)⟩
    · by_cases hnodeId : node.self.id = creator.id
      · exact hcycle.forwarded hsrv ((hruns j.1).mpr (.inr ⟨j, hj, rfl⟩)) (hnodeId ▸ hid) key
      · exact hcycle.forwarded hsrv ((hruns creator).mpr (.inl rfl)) (Ne.symm hnodeId) key

/-! ### Two servers on one host -/

def portServer (port id : UInt16) : ServerInfo := ⟨⟨0x7f000001, port⟩, id⟩

/-- The second server is started and registers with the first one; the datagrams arrive as they were
sent. -/
def pairJoined (id id' : UInt16) : Option Chord :=
  (List.replicate 6 0).foldlM (Chord.deliverAt fun _ _ => true)
    ((Chord.create (portServer 1024 id)).start (portServer 1025 id') (portServer 1024 id).address)

theorem exists_pairJoined {id id' : UInt16} (h : (pairJoined id id').map (fun c => (c.inFlight,
      (c.parties (portServer 1024 id).address).map (·.self))) = some ([], some (portServer 1024 id))) :
    ∃ sys node, Run JoinStep (createChord (portServer 1024 id))
        [(portServer 1025 id', (portServer 1024 id).address)] sys ∧
      nodes sys (portServer 1024 id).address = some node := by
  obtain ⟨chord, hchord, hfacts⟩ := Option.map_eq_some_iff.mp h
  simp only [Prod.mk.injEq, Option.map_eq_some_iff] at hfacts
  obtain ⟨hquiet, node, hnode, -⟩ := hfacts
  have hne : (portServer 1025 id').address ≠ (portServer 1024 id).address := by
    rintro ⟨⟩
  have hnodes : nodes (Chord.create (portServer 1024 id)).startup = _ := nodes_toSystem _ _
  obtain ⟨steps, hrun⟩ := Chord.run_of_deliverAt
    (fun chord next m _ _ _ hstep => by
      obtain ⟨heap, hserver⟩ := Chord.serverStep_of_step (fun _ => htCreate) hstep
      exact ⟨_, hserver⟩) hchord
  rw [← join_startup] at hrun
  rw [createChord_eq]
  refine ⟨chord.startup, node, .single (.mk ?_ ?_ hrun (List.map_eq_nil_iff.mpr hquiet)), ?_⟩
  · rw [hnodes]
    simp [Chord.create, hne]
  · rw [hnodes]
    exact ((runs_create _ _).mpr rfl).exists_node
  · rw [nodes_toSystem]
    exact hnode

theorem request_reaches_owner_iff_twoIds :
    ∃ sys node, Run JoinStep (createChord (portServer 1024 0))
        [(portServer 1025 1, (portServer 1024 0).address)] sys ∧
      nodes sys (portServer 1024 0).address = some node ∧
      ∃ k owner, Forwarded (nodes sys) [107] node.self k owner := by
  obtain ⟨sys, node, hrun, hnode⟩ := @exists_pairJoined 0 1 (by decide +kernel)
  exact ⟨sys, node, hrun, hnode,
    (request_reaches_owner_iff _ _ _ hrun _ _ node hnode).mpr (.inr ⟨_, List.mem_cons_self, by decide⟩)⟩

/-- Of two servers whose ids are both 0 each takes the other for the owner of every key. -/
theorem request_circulates :
    ∃ sys node, Run JoinStep (createChord (portServer 1024 0))
        [(portServer 1025 0, (portServer 1024 0).address)] sys ∧
      nodes sys (portServer 1024 0).address = some node ∧
      ∀ key, ¬∃ k owner, Forwarded (nodes sys) key node.self k owner := by
  obtain ⟨sys, node, hrun, hnode⟩ := @exists_pairJoined 0 0 (by decide +kernel)
  refine ⟨sys, node, hrun, hnode, fun key => ?_⟩
  rintro ⟨k, owner, hforwarded⟩
  refine not_owns_of_same_ids hrun (List.cons_ne_nil _ _) ?_ owner key hforwarded.owns
  simp [portServer]

end ComputerNetworking.Dht
