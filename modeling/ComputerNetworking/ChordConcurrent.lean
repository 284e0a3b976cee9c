import ComputerNetworking.ChordJoin

/-! Servers that join at the same time.

As long as no JOIN message reaches a server that has not got its own next server yet, the servers that
have been accepted form a set in which every next pointer is the first other server clockwise, or will
be when the notice arrives that is on its way. Every other server has exactly one JOIN message in
flight. The code takes a server without a next one for the only node in the chord, so that a JOIN message
which arrives early splits the ring. -/

namespace ComputerNetworking.Dht

open Clockwise Datagrams

/-- The servers whose JOIN messages are in flight. -/
def joining (l : List (Datagram SockaddrIn IntlMsg)) : List ServerInfo :=
  l.filterMap fun d => if d.payload.kind = .join then some d.payload.srv else none

/-- What is known of a message in flight among the members. -/
def ValidMsg (parties : SockaddrIn → Option DhtNode) (M : Finset ServerInfo)
    (d : Datagram SockaddrIn IntlMsg) : Prop :=
  match d.payload with
  | ⟨.join, _⟩ => True
  | ⟨.notify, z⟩ => z ∈ M ∧ ∃ w ∈ M, d.dst = w.address ∧ ∀ node, parties w.address = some node →
      node.next = none → IsNext ServerInfo.position M w z
  | ⟨.stabilize, w⟩ => w ∈ M ∧ (∃ y ∈ M, d.dst = y.address) ∧
      ∀ node, parties w.address = some node → node.next ≠ none

/-- The invariant of runs without early JOIN messages. `M` holds the servers that have been
accepted. -/
structure StartupInv (creator : ServerInfo) (M : Finset ServerInfo) (chord : Chord) : Prop where
  address : ∀ a node, chord.parties a = some node → node.self.address = a
  distinct : ∀ a b node node', chord.parties a = some node → chord.parties b = some node' →
    node.self.id = node'.self.id → a = b
  creatorMem : creator ∈ M
  running : ∀ srv ∈ M, ∃ node, chord.parties srv.address = some node ∧ node.self = srv
  linked : ∀ a node y, chord.parties a = some node → node.next = some y →
    node.self ∈ M ∧ IsNext ServerInfo.position M node.self y
  unlinked : ∀ a node, chord.parties a = some node → node.self ∈ M → node.next = none →
    node.self = creator ∧ M = {creator} ∨
      node.self ≠ creator ∧ ∃ d ∈ chord.inFlight, d.dst = a ∧ d.payload.kind = .notify
  prev : ∀ a node p, chord.parties a = some node → node.prev = some p → p ∈ M
  waiting : ∀ a node, chord.parties a = some node → node.self ∉ M →
    node.self ∈ joining chord.inFlight
  joins : ∀ srv ∈ joining chord.inFlight, srv ∉ M ∧
    ∃ node, chord.parties srv.address = some node ∧ node.self = srv
  nodup : (joining chord.inFlight).Nodup
  messages : ∀ d ∈ chord.inFlight, ValidMsg chord.parties M d

section Invariant

variable {creator x y s : ServerInfo} {M : Finset ServerInfo} {chord : Chord}
  {d : Datagram SockaddrIn IntlMsg} {rest sends : List (Datagram SockaddrIn IntlMsg)}
  {p p' : DhtNode}

theorem joining_append (l l' : List (Datagram SockaddrIn IntlMsg)) :
    joining (l ++ l') = joining l ++ joining l' := List.filterMap_append

theorem joining_perm {l l' : List (Datagram SockaddrIn IntlMsg)} (h : l.Perm l') :
    (joining l).Perm (joining l') := h.filterMap _

/-- The node of a server after one node has changed. -/
theorem update_cases {parties : SockaddrIn → Option DhtNode} {a b : SockaddrIn} {node : DhtNode}
    (h : Function.update parties a (some p') b = some node) :
    (b = a ∧ node = p') ∨ (b ≠ a ∧ parties b = some node) := by
  by_cases hb : b = a
  · rw [hb, Function.update_self] at h
    cases h
    exact .inl ⟨hb, rfl⟩
  · rw [Function.update_of_ne hb] at h
    exact .inr ⟨hb, h⟩

theorem update_self_eq {parties : SockaddrIn → Option DhtNode} {a b : SockaddrIn} {node : DhtNode}
    (hp : parties a = some p) (hself : p'.self = p.self)
    (h : Function.update parties a (some p') b = some node) :
    ∃ old, parties b = some old ∧ node.self = old.self := by
  rcases update_cases h with ⟨rfl, rfl⟩ | ⟨-, hold⟩
  · exact ⟨p, hp, hself⟩
  · exact ⟨node, hold, rfl⟩

/-- Every server runs at its address, and no two have the same id. -/
structure DistinctServers (parties : SockaddrIn → Option DhtNode) : Prop where
  address : ∀ a node, parties a = some node → node.self.address = a
  distinct : ∀ a b node node', parties a = some node → parties b = some node' →
    node.self.id = node'.self.id → a = b

section Distinct

variable {parties : SockaddrIn → Option DhtNode}

theorem DistinctServers.update (h : DistinctServers parties) {a : SockaddrIn} (hp : parties a = some p)
    (hself : p'.self = p.self) : DistinctServers (Function.update parties a (some p')) where
  address := by
    intro b node hb
    obtain ⟨old, hold, heq⟩ := update_self_eq hp hself hb
    rw [heq]
    exact h.address b old hold
  distinct := by
    intro b c node node' hb hc hid
    obtain ⟨old, hold, heq⟩ := update_self_eq hp hself hb
    obtain ⟨old', hold', heq'⟩ := update_self_eq hp hself hc
    exact h.distinct b c old old' hold hold' (by rwa [← heq, ← heq'])

theorem DistinctServers.start (h : DistinctServers parties)
    (hid : ∀ a node, parties a = some node → node.self.id ≠ s.id) :
    DistinctServers (Function.update parties s.address (some ⟨s, none, none⟩)) where
  address := by
    intro a node ha
    rcases update_cases ha with ⟨rfl, rfl⟩ | ⟨-, hold⟩
    · rfl
    · exact h.address a node hold
  distinct := by
    intro a b node node' ha hb heq
    rcases update_cases ha with ⟨rfl, rfl⟩ | ⟨-, hold⟩ <;>
      rcases update_cases hb with ⟨rfl, rfl⟩ | ⟨-, hold'⟩
    · rfl
    · exact absurd heq.symm (hid b node' hold')
    · exact absurd heq (hid a node hold)
    · exact h.distinct a b node node' hold hold' heq

end Distinct

theorem StartupInv.servers (h : StartupInv creator M chord) : DistinctServers chord.parties :=
  ⟨h.address, h.distinct⟩

/-- A running server goes on running. -/
theorem running_update {parties : SockaddrIn → Option DhtNode} {a : SockaddrIn}
    (hp : parties a = some p) (hself : p'.self = p.self) {srv : ServerInfo}
    (hsrv : ∃ node, parties srv.address = some node ∧ node.self = srv) :
    ∃ node, Function.update parties a (some p') srv.address = some node ∧ node.self = srv := by
  obtain ⟨node, hnode, hnodeSelf⟩ := hsrv
  by_cases heq : srv.address = a
  · rw [heq, hp] at hnode
    cases hnode
    exact ⟨p', by rw [heq, Function.update_self], hself.trans hnodeSelf⟩
  · exact ⟨node, by rw [Function.update_of_ne heq, hnode], hnodeSelf⟩

/-- A running server goes on running when another one is started. -/
theorem running_start {parties : SockaddrIn → Option DhtNode} {a : SockaddrIn} (hfresh : parties a = none)
    {srv : ServerInfo} (hsrv : ∃ node, parties srv.address = some node ∧ node.self = srv) :
    ∃ node, Function.update parties a (some p') srv.address = some node ∧ node.self = srv := by
  obtain ⟨node, hnode, hself⟩ := hsrv
  exact ⟨node, (Function.update_of_ne (ne_of_fresh hfresh hnode) _ _).trans hnode, hself⟩

/-- The ids of the members are distinct. -/
theorem StartupInv.injOn (h : StartupInv creator M chord) : Set.InjOn ServerInfo.position M := by
  intro a ha b hb heq
  obtain ⟨node, hnode, rfl⟩ := h.running a ha
  obtain ⟨node', hnode', rfl⟩ := h.running b hb
  have := h.distinct _ _ node node' hnode hnode' (UInt16.toFin_inj.mp heq)
  rw [this, hnode'] at hnode
  cases hnode
  rfl

/-- A message stays valid when a node changes that keeps its next server, if it has one. -/
theorem ValidMsg.update {parties : SockaddrIn → Option DhtNode} {a : SockaddrIn}
    (h : ValidMsg parties M d) (hp : parties a = some p) (hnone : p'.next = none → p.next = none) :
    ValidMsg (Function.update parties a (some p')) M d := by
  obtain ⟨src, dst, ⟨kind, srv⟩⟩ := d
  cases kind with
  | join => trivial
  | notify =>
      obtain ⟨hmem, w, hw, hdst, hnext⟩ := h
      refine ⟨hmem, w, hw, hdst, fun node hnode hnodeNext => ?_⟩
      rcases update_cases hnode with ⟨heq, rfl⟩ | ⟨-, hold⟩
      · exact hnext p (heq ▸ hp) (hnone hnodeNext)
      · exact hnext node hold hnodeNext
  | stabilize =>
      obtain ⟨hmem, hdst, hnext⟩ := h
      refine ⟨hmem, hdst, fun node hnode hnodeNext => ?_⟩
      rcases update_cases hnode with ⟨heq, rfl⟩ | ⟨-, hold⟩
      · exact hnext p (heq ▸ hp) (hnone hnodeNext)
      · exact hnext node hold hnodeNext

/-- A message stays valid when a server is started that is no member. -/
theorem ValidMsg.start {parties : SockaddrIn → Option DhtNode} {a : SockaddrIn} (h : ValidMsg parties M d)
    (hM : ∀ srv ∈ M, srv.address ≠ a) : ValidMsg (Function.update parties a (some p')) M d := by
  obtain ⟨src, dst, ⟨kind, srv⟩⟩ := d
  cases kind with
  | join => trivial
  | notify =>
      obtain ⟨hmem, w, hw, hdst, hisNext⟩ := h
      refine ⟨hmem, w, hw, hdst, fun node hnode => ?_⟩
      exact hisNext node ((update_cases hnode).resolve_left fun heq => hM w hw heq.1).2
  | stabilize =>
      obtain ⟨hmem, hdst, hnext⟩ := h
      refine ⟨hmem, hdst, fun node hnode => ?_⟩
      exact hnext node ((update_cases hnode).resolve_left fun heq => hM srv hmem heq.1).2

/-- A reaction that accepts no new server. -/
theorem StartupInv.reply (h : StartupInv creator M chord) (hperm : chord.inFlight.Perm (d :: rest))
    (hp : chord.parties d.dst = some p) (hself : p'.self = p.self)
    (hnext : p'.next = p.next ∨ ∃ y, p'.next = some y ∧ p.self ∈ M ∧
      IsNext ServerInfo.position M p.self y)
    (hprev : ∀ q, p'.prev = some q → q ∈ M)
    (hnotify : d.payload.kind = .notify → p'.next ≠ none)
    (hjoining : (joining (d :: rest)).Perm (joining (rest ++ sends)))
    (hsends : ∀ e ∈ sends, ValidMsg (Function.update chord.parties d.dst (some p')) M e) :
    StartupInv creator M ⟨Function.update chord.parties d.dst (some p'), rest ++ sends⟩ := by
  have hnone : p'.next = none → p.next = none := by
    rcases hnext with heq | ⟨y, hy, -⟩
    · exact fun h => heq ▸ h
    · exact fun h => by rw [hy] at h; cases h
  have hjoins := (joining_perm hperm).trans hjoining
  constructor
  case address => exact (h.servers.update hp hself).address
  case distinct => exact (h.servers.update hp hself).distinct
  case creatorMem => exact h.creatorMem
  case running => exact fun srv hsrv => running_update hp hself (h.running srv hsrv)
  case linked =>
    intro b node y hb hy
    rcases update_cases hb with ⟨rfl, rfl⟩ | ⟨-, hold⟩
    · rw [hself]
      rcases hnext with heq | ⟨z, hz, hmem, hisNext⟩
      · exact h.linked _ p y hp (heq ▸ hy)
      · rw [hz] at hy
        cases hy
        exact ⟨hmem, hisNext⟩
    · exact h.linked b node y hold hy
  case unlinked =>
    intro b node hb hmem hnodeNext
    have hnot : b = d.dst → d.payload.kind ≠ .notify := by
      intro heq hkind
      rcases update_cases hb with ⟨-, rfl⟩ | ⟨hne, -⟩
      · exact hnotify hkind hnodeNext
      · exact hne heq
    obtain ⟨old, hold, hoverSelf, holdNext⟩ : ∃ old, chord.parties b = some old ∧
        node.self = old.self ∧ old.next = none := by
      rcases update_cases hb with ⟨rfl, rfl⟩ | ⟨-, hold⟩
      · exact ⟨p, hp, hself, hnone hnodeNext⟩
      · exact ⟨node, hold, rfl, hnodeNext⟩
    rw [hoverSelf] at hmem ⊢
    refine (h.unlinked b old hold hmem holdNext).imp_right fun ⟨hcreator, e, he, hedst, hekind⟩ =>
      ⟨hcreator, ?_⟩
    rcases List.mem_cons.mp (hperm.subset he) with rfl | he
    · exact absurd hekind (hnot hedst.symm)
    · exact ⟨e, List.mem_append_left _ he, hedst, hekind⟩
  case prev =>
    intro b node q hb hq
    rcases update_cases hb with ⟨rfl, rfl⟩ | ⟨-, hold⟩
    · exact hprev q hq
    · exact h.prev b node q hold hq
  case waiting =>
    intro b node hb hmem
    obtain ⟨old, hold, heq⟩ := update_self_eq hp hself hb
    rw [heq] at hmem ⊢
    exact hjoins.subset (h.waiting b old hold hmem)
  case joins =>
    intro srv hsrv
    obtain ⟨hmem, hrunning⟩ := h.joins srv (hjoins.symm.subset hsrv)
    exact ⟨hmem, running_update hp hself hrunning⟩
  case nodup => exact hjoins.nodup_iff.mp h.nodup
  case messages =>
    intro e he
    rcases List.mem_append.mp he with he | he
    · exact (h.messages e (hperm.symm.subset (List.mem_cons_of_mem d he))).update hp hnone
    · exact hsends e he

/-- A message stays valid when a server accepts a new one. -/
theorem ValidMsg.accept {parties : SockaddrIn → Option DhtNode} {a : SockaddrIn} (h : ValidMsg parties M d)
    (haddress : p.self.address = a) (hother : ∀ w ∈ M, w ≠ p.self → ∀ z, IsNext ServerInfo.position M w z →
      IsNext ServerInfo.position (insert s M) w z) :
    ValidMsg (Function.update parties a (some (p.link s))) (insert s M) d := by
  obtain ⟨src, dst, ⟨kind, srv⟩⟩ := d
  cases kind with
  | join => trivial
  | notify =>
      obtain ⟨hz, w, hw, hdst, hisNext⟩ := h
      refine ⟨Finset.mem_insert_of_mem hz, w, Finset.mem_insert_of_mem hw, hdst, ?_⟩
      intro node hnode hnodeNext
      rcases update_cases hnode with ⟨-, rfl⟩ | ⟨hwa, hold⟩
      · cases hnodeNext
      · refine hother w hw ?_ srv (hisNext node hold hnodeNext)
        rintro rfl
        exact hwa haddress
  | stabilize =>
      obtain ⟨hw, ⟨z, hz, hdst⟩, hnext⟩ := h
      refine ⟨Finset.mem_insert_of_mem hw, ⟨z, Finset.mem_insert_of_mem hz, hdst⟩, ?_⟩
      intro node hnode hnodeNext
      rcases update_cases hnode with ⟨-, rfl⟩ | ⟨-, hold⟩
      · cases hnodeNext
      · exact hnext node hold hnodeNext

/-- The two messages to a new server are valid. -/
theorem validMsg_welcome {parties : SockaddrIn → Option DhtNode} {a : SockaddrIn}
    (haddress : p.self.address = a) (hmem : p.self ∈ M) (hy : y ∈ M)
    (hright : IsNext ServerInfo.position (insert s M) s y) (he : d ∈ p.welcome y s) :
    ValidMsg (Function.update parties a (some (p.link s))) (insert s M) d := by
  rcases List.mem_cons.mp he with rfl | he
  · exact ⟨Finset.mem_insert_of_mem hy, s, Finset.mem_insert_self s M, rfl, fun _ _ _ => hright⟩
  · rw [List.mem_singleton] at he
    subst he
    refine ⟨Finset.mem_insert_of_mem hmem, ⟨s, Finset.mem_insert_self s M, rfl⟩, ?_⟩
    intro node hnode hnodeNext
    rcases update_cases hnode with ⟨-, rfl⟩ | ⟨hpa, -⟩
    · cases hnodeNext
    · exact hpa haddress

/-- A member accepts a new server. -/
theorem StartupInv.accept (h : StartupInv creator M chord) (hperm : chord.inFlight.Perm (d :: rest))
    (hp : chord.parties d.dst = some p) (hmem : p.self ∈ M) (hd : d.payload = ⟨.join, s⟩)
    (hy : y ∈ M) (hleft : IsNext ServerInfo.position (insert s M) p.self s)
    (hright : IsNext ServerInfo.position (insert s M) s y)
    (hother : ∀ w ∈ M, w ≠ p.self → ∀ z, IsNext ServerInfo.position M w z →
      IsNext ServerInfo.position (insert s M) w z) :
    StartupInv creator (insert s M)
      ⟨Function.update chord.parties d.dst (some (p.link s)), rest ++ p.welcome y s⟩ := by
  have hpaddress := h.address _ p hp
  have hlink : (p.link s).self = p.self := rfl
  have hjoinsPerm : (joining chord.inFlight).Perm (s :: joining rest) := by
    have hcons : joining (d :: rest) = s :: joining rest := by
      rw [joining, List.filterMap_cons, hd]
      rfl
    exact hcons ▸ joining_perm hperm
  have hwelcome : joining (rest ++ p.welcome y s) = joining rest := by
    rw [joining_append]
    exact List.append_nil _
  have hsjoin : s ∈ joining chord.inFlight := hjoinsPerm.symm.subset List.mem_cons_self
  obtain ⟨hsM, snode, hsnode, hsself⟩ := h.joins s hsjoin
  have hnodup := hjoinsPerm.nodup_iff.mp h.nodup
  rw [List.nodup_cons] at hnodup
  have hne (a : SockaddrIn) (node : DhtNode) (ha : a ≠ d.dst) (hnode : chord.parties a = some node) :
      node.self ≠ p.self := by
    intro heq
    have := h.address a node hnode
    rw [heq, hpaddress] at this
    exact ha this.symm
  constructor
  case address => exact (h.servers.update hp hlink).address
  case distinct => exact (h.servers.update hp hlink).distinct
  case creatorMem => exact Finset.mem_insert_of_mem h.creatorMem
  case running =>
    intro srv hsrv
    rcases Finset.mem_insert.mp hsrv with rfl | hsrv
    · exact running_update hp hlink ⟨snode, hsnode, hsself⟩
    · exact running_update hp hlink (h.running srv hsrv)
  case linked =>
    intro b node z hb hz
    rcases update_cases hb with ⟨rfl, rfl⟩ | ⟨hbd, hold⟩
    · cases hz
      exact ⟨Finset.mem_insert_of_mem hmem, hleft⟩
    · obtain ⟨hnodeMem, hisNext⟩ := h.linked b node z hold hz
      exact ⟨Finset.mem_insert_of_mem hnodeMem, hother _ hnodeMem (hne b node hbd hold) z hisNext⟩
  case unlinked =>
    intro b node hb hnodeMem hnodeNext
    rcases update_cases hb with ⟨rfl, rfl⟩ | ⟨hbd, hold⟩
    · cases hnodeNext
    · right
      rcases Finset.mem_insert.mp hnodeMem with heq | hnodeMem
      · have hb := h.address b node hold
        refine ⟨fun hcreator => hsM (heq ▸ hcreator ▸ h.creatorMem),
          p.tell s ⟨.notify, y⟩, by simp [DhtNode.welcome], ?_, rfl⟩
        rw [← hb, heq]
        rfl
      · rcases h.unlinked b node hold hnodeMem hnodeNext with ⟨heq, hM⟩ | ⟨hcreator, e, he, hedst, hekind⟩
        · rw [hM, Finset.mem_singleton] at hmem
          exact absurd (heq.trans hmem.symm) (hne b node hbd hold)
        · refine ⟨hcreator, ?_⟩
          rcases List.mem_cons.mp (hperm.subset he) with rfl | he
          · rw [hd] at hekind
            cases hekind
          · exact ⟨e, List.mem_append_left _ he, hedst, hekind⟩
  case prev =>
    intro b node q hb hq
    rcases update_cases hb with ⟨rfl, rfl⟩ | ⟨-, hold⟩
    · exact Finset.mem_insert_of_mem (h.prev _ p q hp hq)
    · exact Finset.mem_insert_of_mem (h.prev b node q hold hq)
  case waiting =>
    intro b node hb hnodeMem
    obtain ⟨old, hold, heq⟩ := update_self_eq hp hlink hb
    rw [Finset.mem_insert, not_or, heq] at hnodeMem
    change _ ∈ joining (rest ++ p.welcome y s)
    rw [hwelcome, heq]
    exact (List.mem_cons.mp (hjoinsPerm.subset (h.waiting b old hold hnodeMem.2))).resolve_left
      hnodeMem.1
  case joins =>
    intro srv hsrv
    change srv ∈ joining (rest ++ p.welcome y s) at hsrv
    rw [hwelcome] at hsrv
    obtain ⟨hsrvM, hrunning⟩ := h.joins srv (hjoinsPerm.symm.subset (List.mem_cons_of_mem s hsrv))
    refine ⟨?_, running_update hp hlink hrunning⟩
    rw [Finset.mem_insert, not_or]
    refine ⟨?_, hsrvM⟩
    rintro rfl
    exact hnodup.1 hsrv
  case nodup =>
    change (joining (rest ++ p.welcome y s)).Nodup
    rw [hwelcome]
    exact hnodup.2
  case messages =>
    intro e he
    rcases List.mem_append.mp he with he | he
    · exact (h.messages e (hperm.symm.subset (List.mem_cons_of_mem d he))).accept hpaddress hother
    · exact validMsg_welcome hpaddress hmem hy hright he

/-! ### Deliveries -/

theorem joining_cons_of_ne {l : List (Datagram SockaddrIn IntlMsg)} (hd : d.payload.kind ≠ .join) :
    joining (d :: l) = joining l := by
  rw [joining, List.filterMap_cons, if_neg hd]
  rfl

/-- The id of a server whose JOIN message is in flight is not that of a member. -/
theorem StartupInv.position_ne (h : StartupInv creator M chord) (hs : s ∈ joining chord.inFlight)
    (hx : x ∈ M) : x.position ≠ s.position := by
  intro heq
  obtain ⟨hsM, snode, hsnode, rfl⟩ := h.joins s hs
  obtain ⟨node, hnode, rfl⟩ := h.running x hx
  have hid := h.distinct _ _ node snode hnode hsnode (UInt16.toFin_inj.mp heq)
  rw [hid, hsnode] at hnode
  cases hnode
  exact hsM hx

/-- A JOIN message is delivered to a member. -/
theorem StartupInv.join (h : StartupInv creator M chord) (hperm : chord.inFlight.Perm (d :: rest))
    (hp : chord.parties d.dst = some p) (hd : d.payload = ⟨.join, s⟩)
    (hearly : p.next = none → p.self = creator) :
    ∃ M', StartupInv creator M' ⟨Function.update chord.parties d.dst (some (respond p d.payload).1),
      rest ++ (respond p d.payload).2⟩ := by
  have hs : s ∈ joining chord.inFlight := by
    refine (joining_perm hperm).symm.subset ?_
    simp [joining, hd]
  have hsM := (h.joins s hs).1
  have hmem : p.self ∈ M := by
    cases hnext : p.next with
    | none => exact hearly hnext ▸ h.creatorMem
    | some y => exact (h.linked _ p y hp hnext).1
  have hne := h.position_ne hs hmem
  cases hnext : p.next with
  | none =>
      have hM : M = {p.self} := by
        rcases h.unlinked _ p hp hmem hnext with ⟨heq, hM⟩ | ⟨hcreator, -⟩
        · rw [heq, hM]
        · exact absurd (hearly hnext) hcreator
      have haccept : respond p ⟨.join, s⟩ = (p.link s, p.welcome p.self s) := by
        simp only [respond, hnext]
      obtain ⟨hleft, hright⟩ : IsNext ServerInfo.position (insert s {p.self}) p.self s ∧
          IsNext ServerInfo.position (insert s {p.self}) s p.self :=
        isNext_insert_singleton fun heq => hne (congrArg _ heq.symm)
      rw [hd, haccept]
      refine ⟨_, h.accept hperm hp hmem hd hmem ?_ ?_ fun w hw hwp => ?_⟩
      · rwa [hM]
      · rwa [hM]
      · rw [hM, Finset.mem_singleton] at hw
        exact absurd hw hwp
  | some y =>
      have hy := (h.linked _ p y hp hnext).2
      cases hrange : isInRange p.self y s with
      | true =>
          have harc := (isInRange_iff _ _ _).mp hrange
          rw [hd, respond_join_accept hnext hrange]
          exact ⟨_, h.accept hperm hp hmem hd hy.mem (hy.insert_left hsM hmem harc)
            (hy.insert_right hsM hne harc) fun w hw hwp z => hy.insert_other hmem harc hw hwp⟩
      | false =>
          have hid : y.id ≠ p.self.id := fun heq =>
            hy.pos_ne h.injOn hmem (congrArg UInt16.toFin heq.symm)
          rw [hd, respond_join_forward hnext hrange hid]
          refine ⟨M, h.reply hperm hp rfl (.inl rfl) (fun q => h.prev _ p q hp) ?_ ?_ ?_⟩
          · rw [hd]
            rintro ⟨⟩
          · have hforward : joining [p.tell y ⟨.join, s⟩] = [s] := rfl
            rw [joining_append, hforward, ← List.singleton_append, joining_append]
            have hcons : joining [d] = [s] := by simp [joining, hd]
            rw [hcons]
            exact List.perm_append_comm
          · intro e he
            rw [List.mem_singleton] at he
            subst he
            trivial

/-- A NOTIFY message is delivered. -/
theorem StartupInv.notify (h : StartupInv creator M chord) (hperm : chord.inFlight.Perm (d :: rest))
    (hp : chord.parties d.dst = some p) (hd : d.payload = ⟨.notify, s⟩) :
    StartupInv creator M ⟨Function.update chord.parties d.dst (some (respond p d.payload).1),
      rest ++ (respond p d.payload).2⟩ := by
  have hkind : d.payload.kind ≠ .join := by
    rw [hd]
    rintro ⟨⟩
  have hvalid := h.messages d (hperm.symm.subset List.mem_cons_self)
  rw [ValidMsg, hd] at hvalid
  obtain ⟨hsM, w, hw, hdst, hisNext⟩ := hvalid
  have hself : p.self = w := by
    obtain ⟨node, hnode, hnodeSelf⟩ := h.running w hw
    rw [← hdst, hp] at hnode
    cases hnode
    exact hnodeSelf
  subst hself
  cases hnext : p.next with
  | none =>
      rw [hd, respond_notify_accept hnext]
      refine h.reply hperm hp rfl (.inr ⟨s, rfl, hw, hisNext p (hdst ▸ hp) hnext⟩)
        (fun q => h.prev _ p q hp) (by rintro _ ⟨⟩) ?_ ?_
      · rw [joining_cons_of_ne hkind, joining_append]
        exact (List.append_nil _).symm ▸ List.Perm.refl _
      · intro e he
        rw [List.mem_singleton] at he
        subst he
        refine ⟨hw, ⟨s, hsM, rfl⟩, fun node hnode hnodeNext => ?_⟩
        rcases update_cases hnode with ⟨-, rfl⟩ | ⟨hne, -⟩
        · cases hnodeNext
        · exact hne hdst.symm
  | some y =>
      have hout : s.id = p.self.id ∨ isInRange p.self y s = false := by
        by_cases heq : s = p.self
        · exact .inl (congrArg _ heq)
        · right
          rw [← Bool.not_eq_true, isInRange_iff]
          exact (h.linked _ p y hp hnext).2.not_between hsM heq
      rw [hd, respond_notify_ignore hnext hout]
      refine h.reply hperm hp rfl (.inl rfl) (fun q => h.prev _ p q hp) (fun _ => ?_) ?_
        (by rintro _ ⟨⟩)
      · rw [hnext]
        rintro ⟨⟩
      · rw [joining_cons_of_ne hkind, List.append_nil]

/-- A STABILIZE message is delivered. -/
theorem StartupInv.stabilize (h : StartupInv creator M chord)
    (hperm : chord.inFlight.Perm (d :: rest)) (hp : chord.parties d.dst = some p)
    (hd : d.payload = ⟨.stabilize, s⟩) :
    StartupInv creator M ⟨Function.update chord.parties d.dst (some (respond p d.payload).1),
      rest ++ (respond p d.payload).2⟩ := by
  have hkind : d.payload.kind ≠ .join ∧ d.payload.kind ≠ .notify := by
    rw [hd]
    constructor <;> rintro ⟨⟩
  have hvalid := h.messages d (hperm.symm.subset List.mem_cons_self)
  rw [ValidMsg, hd] at hvalid
  obtain ⟨hsM, -, hlinked⟩ := hvalid
  obtain ⟨q, hq, hrespond⟩ : ∃ q ∈ M, respond p ⟨.stabilize, s⟩ =
      ({ p with prev := some q }, [p.tell s ⟨.notify, q⟩]) := by
    unfold respond
    refine ⟨_, ?_, rfl⟩
    cases hprev : p.prev with
    | none => exact hsM
    | some q =>
        dsimp only
        split
        · exact hsM
        · exact h.prev _ p q hp hprev
  rw [hd, hrespond]
  refine h.reply hperm hp rfl (.inl rfl) ?_ (fun hnotify => absurd hnotify hkind.2) ?_ ?_
  · rintro q' ⟨⟩
    exact hq
  · rw [joining_cons_of_ne hkind.1, joining_append]
    exact (List.append_nil _).symm ▸ List.Perm.refl _
  · intro e he
    rw [List.mem_singleton] at he
    subst he
    refine ⟨hq, s, hsM, rfl, fun node hnode hnodeNext => ?_⟩
    rcases update_cases hnode with ⟨heq, rfl⟩ | ⟨-, hold⟩
    · exact absurd hnodeNext (hlinked p (heq ▸ hp))
    · exact absurd hnodeNext (hlinked node hold)

/-- A delivery keeps the invariant unless it is that of an early JOIN message. -/
theorem StartupInv.deliver (h : StartupInv creator M chord) {next : Chord}
    {e : Unit × Datagram SockaddrIn IntlMsg} (hstep : ChordStep chord e next)
    (hearly : e.2.payload.kind = .join → ∀ node, chord.parties e.2.dst = some node →
      node.next = none → node.self = creator) :
    ∃ M', StartupInv creator M' next := by
  obtain ⟨⟨⟩, d⟩ := e
  obtain ⟨rest, p, hperm, hp, rfl⟩ := hstep.elim
  obtain ⟨kind, s, hd⟩ : ∃ kind s, d.payload = ⟨kind, s⟩ := ⟨_, _, rfl⟩
  change ∃ M', StartupInv creator M' ⟨Function.update chord.parties d.dst
    (some (respond p d.payload).1), rest ++ (respond p d.payload).2⟩
  cases kind with
  | join => exact h.join hperm hp hd (hearly (by rw [hd]) p hp)
  | notify => exact ⟨M, h.notify hperm hp hd⟩
  | stabilize => exact ⟨M, h.stabilize hperm hp hd⟩

/-! ### Starts -/

/-- A server alone. -/
def Chord.create (creator : ServerInfo) : Chord :=
  ⟨Function.update (fun _ => none) creator.address (some ⟨creator, none, none⟩), []⟩

/-- A further server is started. -/
def Chord.start (chord : Chord) (self : ServerInfo) (registration : SockaddrIn) : Chord :=
  ⟨Function.update chord.parties self.address (some ⟨self, none, none⟩),
    chord.inFlight ++ [⟨self.address, registration, ⟨.join, self⟩⟩]⟩

theorem Chord.create_parties {a : SockaddrIn} {node : DhtNode}
    (h : (Chord.create creator).parties a = some node) :
    a = creator.address ∧ node = ⟨creator, none, none⟩ := by
  have hupdate : Function.update (fun _ => none) creator.address
      (some (DhtNode.mk creator none none)) a = some node := h
  exact (update_cases hupdate).resolve_right fun hold => Option.some_ne_none _ hold.2.symm

theorem distinctServers_create (creator : ServerInfo) : DistinctServers (Chord.create creator).parties where
  address := by
    intro a node ha
    obtain ⟨rfl, rfl⟩ := Chord.create_parties ha
    rfl
  distinct := by
    intro a b node node' ha hb _
    rw [(Chord.create_parties ha).1, (Chord.create_parties hb).1]

theorem startupInv_create (creator : ServerInfo) : StartupInv creator {creator} (Chord.create creator) := by
  have honly (a : SockaddrIn) (node : DhtNode) (ha : (Chord.create creator).parties a = some node) :=
    Chord.create_parties ha
  constructor
  case address => exact (distinctServers_create creator).address
  case distinct => exact (distinctServers_create creator).distinct
  case creatorMem => exact Finset.mem_singleton_self creator
  case running =>
    intro srv hsrv
    rw [Finset.mem_singleton.mp hsrv]
    exact ⟨⟨creator, none, none⟩, by simp [Chord.create], rfl⟩
  case linked =>
    intro a node y ha hy
    rw [(honly a node ha).2] at hy
    cases hy
  case unlinked =>
    intro a node ha _ _
    rw [(honly a node ha).2]
    exact .inl ⟨rfl, rfl⟩
  case prev =>
    intro a node q ha hq
    rw [(honly a node ha).2] at hq
    cases hq
  case waiting =>
    intro a node ha hmem
    rw [(honly a node ha).2] at hmem
    exact absurd (Finset.mem_singleton_self creator) hmem
  case joins => rintro _ ⟨⟩
  case nodup => exact List.nodup_nil
  case messages => rintro _ ⟨⟩

/-- A server with a new address and a new id is started. -/
theorem StartupInv.start (h : StartupInv creator M chord) (hfresh : chord.parties s.address = none)
    (hid : ∀ a node, chord.parties a = some node → node.self.id ≠ s.id) (registration : SockaddrIn) :
    StartupInv creator M (chord.start s registration) := by
  have hM (srv : ServerInfo) (hmem : srv ∈ M) : srv.address ≠ s.address := by
    obtain ⟨node, hnode, -⟩ := h.running srv hmem
    exact ne_of_fresh hfresh hnode
  have hsM : s ∉ M := fun hmem => hM s hmem rfl
  have hjoining : joining (chord.start s registration).inFlight = joining chord.inFlight ++ [s] :=
    joining_append _ _
  constructor
  case address => exact (h.servers.start hid).address
  case distinct => exact (h.servers.start hid).distinct
  case creatorMem => exact h.creatorMem
  case running => exact fun srv hsrv => running_start hfresh (h.running srv hsrv)
  case linked =>
    intro a node y ha hy
    rcases update_cases ha with ⟨rfl, rfl⟩ | ⟨-, hold⟩
    · cases hy
    · exact h.linked a node y hold hy
  case unlinked =>
    intro a node ha hmem hnext
    rcases update_cases ha with ⟨rfl, rfl⟩ | ⟨-, hold⟩
    · exact absurd hmem hsM
    · refine (h.unlinked a node hold hmem hnext).imp_right fun ⟨hcreator, e, he, hdst, hkind⟩ => ?_
      exact ⟨hcreator, e, List.mem_append_left _ he, hdst, hkind⟩
  case prev =>
    intro a node q ha hq
    rcases update_cases ha with ⟨rfl, rfl⟩ | ⟨-, hold⟩
    · cases hq
    · exact h.prev a node q hold hq
  case waiting =>
    intro a node ha hmem
    rw [hjoining, List.mem_append]
    rcases update_cases ha with ⟨rfl, rfl⟩ | ⟨-, hold⟩
    · exact .inr (List.mem_singleton_self s)
    · exact .inl (h.waiting a node hold hmem)
  case joins =>
    intro srv hsrv
    rw [hjoining, List.mem_append] at hsrv
    rcases hsrv with hsrv | hsrv
    · obtain ⟨hsrvM, hrunning⟩ := h.joins srv hsrv
      exact ⟨hsrvM, running_start hfresh hrunning⟩
    · rw [List.mem_singleton.mp hsrv]
      exact ⟨hsM, ⟨s, none, none⟩, Function.update_self _ _ _, rfl⟩
  case nodup =>
    rw [hjoining, List.nodup_append]
    refine ⟨h.nodup, List.nodup_singleton s, fun srv hsrv s' hs' => ?_⟩
    rw [List.mem_singleton.mp hs']
    rintro rfl
    obtain ⟨-, node, hnode, -⟩ := h.joins srv hsrv
    exact ne_of_fresh hfresh hnode rfl
  case messages =>
    intro e he
    rcases List.mem_append.mp he with he | he
    · exact (h.messages e he).start hM
    · rw [List.mem_singleton.mp he]
      trivial

/-! ### Rest -/

/-- When nothing is in flight, every next pointer is the first other server clockwise. -/
theorem StartupInv.linked_of_quiet (h : StartupInv creator M chord) (hquiet : chord.inFlight = [])
    (hservers : ∃ a b node node', a ≠ b ∧ chord.parties a = some node ∧ chord.parties b = some node') :
    Linked chord.parties M ∧ 2 ≤ M.card := by
  have hmem (a : SockaddrIn) (node : DhtNode) (ha : chord.parties a = some node) : node.self ∈ M := by
    by_contra hmem
    have := h.waiting a node ha hmem
    rw [hquiet] at this
    cases this
  have hcard : 2 ≤ M.card := by
    obtain ⟨a, b, node, node', hne, ha, hb⟩ := hservers
    refine Finset.one_lt_card.mpr ⟨_, hmem a node ha, _, hmem b node' hb, fun heq => hne ?_⟩
    rw [← h.address a node ha, heq, h.address b node' hb]
  refine ⟨⟨⟨h.injOn, h.running, fun a node ha => ⟨hmem a node ha, h.address a node ha⟩⟩, ?_⟩, hcard⟩
  intro a node ha
  cases hnext : node.next with
  | none =>
      rcases h.unlinked a node ha (hmem a node ha) hnext with ⟨-, hM⟩ | ⟨-, e, he, -⟩
      · rw [hM, Finset.card_singleton] at hcard
        omega
      · rw [hquiet] at he
        cases he
  | some y => exact ⟨y, rfl, (h.linked a node y ha hnext).2⟩

end Invariant

end ComputerNetworking.Dht
