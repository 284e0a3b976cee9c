import Mathlib.Algebra.Order.BigOperators.Group.List
import ComputerNetworking.ChordStartup

/-! Ring maintenance comes to rest.

Joins may go on at the same time, and a JOIN message may reach a server that waits for its own
acceptance, so that the servers can fall into several clusters. Each cluster has a number; the next and
previous pointers and the NOTIFY and STABILIZE messages stay inside a cluster, and a JOIN message is on
its way to a cluster with a smaller number than that of the server that joins, whose cluster becomes
part of it when the message is accepted. So no server ever takes itself for its next one, every next
pointer moves towards its server, and each NOTIFY message that has no effect ends an exchange. -/

namespace ComputerNetworking.Dht

open Clockwise Datagrams Transition

/-! ### What a message does -/

section Respond

variable {p : DhtNode} {s z w : ServerInfo}

/-- The next pointer, once set, stays or moves closer to the server, and never to the server itself. -/
def NextCloser (p p' : DhtNode) : Prop :=
  ∀ y, p.next = some y → ∃ z, p'.next = some z ∧ (z = y ∨
    0 < offset p.self.position z.position ∧
      offset p.self.position z.position < offset p.self.position y.position)

/-- The previous pointer, once set, does not move away from the server. -/
def PrevNotFurther (p p' : DhtNode) : Prop :=
  ∀ q, p.prev = some q → ∃ q', p'.prev = some q' ∧
    offset q'.position p.self.position ≤ offset q.position p.self.position

theorem NextCloser.of_eq {p' : DhtNode} (h : p'.next = p.next) : NextCloser p p' :=
  fun y hy => ⟨y, h.trans hy, .inl rfl⟩

theorem PrevNotFurther.of_eq {p' : DhtNode} (h : p'.prev = p.prev) : PrevNotFurther p p' :=
  fun q hq => ⟨q, h.trans hq, le_rfl⟩

theorem respond_join_cases (hne : ∀ y, p.next = some y → y.id ≠ p.self.id) :
    (p.next = none ∧ respond p ⟨.join, s⟩ = (p.link s, p.welcome p.self s)) ∨
      ∃ y, p.next = some y ∧
        (offset p.self.position s.position < offset p.self.position y.position ∧
            respond p ⟨.join, s⟩ = (p.link s, p.welcome y s) ∨
          respond p ⟨.join, s⟩ = (p, [p.tell y ⟨.join, s⟩])) := by
  cases hnext : p.next with
  | none =>
      left
      simp only [respond, hnext, true_and]
  | some y =>
      right
      refine ⟨y, rfl, ?_⟩
      cases hrange : isInRange p.self y s with
      | true => exact .inl ⟨(isInRange_iff _ _ _).mp hrange, respond_join_accept hnext hrange⟩
      | false => exact .inr (respond_join_forward hnext hrange (hne y hnext))

theorem respond_notify_cases :
    (p.next ≠ none ∧ respond p ⟨.notify, z⟩ = (p, [])) ∨
      respond p ⟨.notify, z⟩ = (p.link z, [p.tell z ⟨.stabilize, p.self⟩]) ∧
        ∀ y, p.next = some y → z.id ≠ p.self.id ∧
          offset p.self.position z.position < offset p.self.position y.position := by
  cases hnext : p.next with
  | none =>
      right
      exact ⟨respond_notify_accept hnext, by rintro y ⟨⟩⟩
  | some y =>
      by_cases hin : isInRange p.self y z = true ∧ z.id ≠ p.self.id
      · right
        refine ⟨by simp [respond, hnext, hin], ?_⟩
        rintro y' ⟨⟩
        exact ⟨hin.2, (isInRange_iff _ _ _).mp hin.1⟩
      · left
        refine ⟨Option.some_ne_none y, respond_notify_ignore hnext ?_⟩
        by_cases hid : z.id = p.self.id
        · exact .inl hid
        · exact .inr (Bool.eq_false_of_not_eq_true fun hrange => hin ⟨hrange, hid⟩)

theorem respond_stabilize_cases : ∃ q,
    respond p ⟨.stabilize, w⟩ = ({ p with prev := some q }, [p.tell w ⟨.notify, q⟩]) ∧
      (p.prev = some q ∧ isInRange q p.self w = false ∨ q = w ∧ ∀ r, p.prev = some r →
        offset w.position p.self.position ≤ offset r.position p.self.position) := by
  cases hprev : p.prev with
  | none => exact ⟨w, by simp only [respond, hprev], .inr ⟨rfl, by rintro r ⟨⟩⟩⟩
  | some r =>
      cases hrange : isInRange r p.self w with
      | true =>
          refine ⟨w, by simp only [respond, hprev, hrange, if_true], .inr ⟨rfl, ?_⟩⟩
          rintro r' ⟨⟩
          have hlt := (isInRange_iff _ _ _).mp hrange
          have hway := offset_of_le hlt.le
          omega
      | false => exact ⟨r, by simp [respond, hprev, hrange], .inl ⟨rfl, hrange⟩⟩

/-- No message moves the previous pointer away. -/
theorem prevNotFurther_respond (m : IntlMsg) : PrevNotFurther p (respond p m).1 := by
  obtain ⟨kind, srv⟩ := m
  cases kind with
  | join =>
      refine .of_eq ?_
      rw [respond]
      split
      · rfl
      · split <;> rfl
  | notify =>
      refine .of_eq ?_
      rcases respond_notify_cases (p := p) (z := srv) with ⟨-, heq⟩ | ⟨heq, -⟩ <;> rw [heq]
      rfl
  | stabilize =>
      obtain ⟨q, heq, hq⟩ := respond_stabilize_cases (p := p) (w := srv)
      rw [heq]
      rcases hq with ⟨hq, -⟩ | ⟨rfl, hle⟩
      · exact .of_eq hq.symm
      · exact fun r hr => ⟨q, rfl, hle r hr⟩

theorem respond_self (p : DhtNode) (m : IntlMsg) : (respond p m).1.self = p.self := by
  obtain ⟨kind, srv⟩ := m
  cases kind with
  | join =>
      rw [respond]
      split
      · rfl
      · split <;> rfl
  | notify =>
      rcases respond_notify_cases (p := p) (z := srv) with ⟨-, heq⟩ | ⟨heq, -⟩ <;> rw [heq]
      rfl
  | stabilize => rfl

end Respond

/-! ### Clusters -/

/-- The server is running. -/
def Runs (parties : SockaddrIn → Option DhtNode) (srv : ServerInfo) : Prop :=
  ∃ node, parties srv.address = some node ∧ node.self = srv

theorem Runs.exists_node {parties : SockaddrIn → Option DhtNode} {srv : ServerInfo} (h : Runs parties srv) :
    ∃ node, parties srv.address = some node := by
  obtain ⟨node, hnode, -⟩ := h
  exact ⟨node, hnode⟩

theorem Runs.update {parties : SockaddrIn → Option DhtNode} {a : SockaddrIn} {p : DhtNode}
    {srv : ServerInfo} (h : Runs parties srv) (hp : parties a = some p) (p' : DhtNode)
    (hself : p'.self = p.self) : Runs (Function.update parties a (some p')) srv :=
  running_update hp hself h

/-- What is known of a message in flight: it stays inside a cluster, or leads to a smaller one. -/
def InCluster (label : SockaddrIn → ℕ) (parties : SockaddrIn → Option DhtNode)
    (d : Datagram SockaddrIn IntlMsg) : Prop :=
  (∃ node, parties d.dst = some node) ∧ Runs parties d.payload.srv ∧
    match d.payload with
    | ⟨.join, s⟩ => label d.dst < label s.address
    | ⟨.notify, z⟩ => label z.address = label d.dst ∧
        ∀ node, parties d.dst = some node → node.next = none → z.address ≠ d.dst
    | ⟨.stabilize, w⟩ => label w.address = label d.dst ∧
        ∀ node, parties w.address = some node → node.next ≠ none

/-- The numbers of the clusters of the servers that join. -/
def joiningLabels (label : SockaddrIn → ℕ) (l : List (Datagram SockaddrIn IntlMsg)) : List ℕ :=
  (joining l).map fun s => label s.address

/-- The invariant of all runs; `label` gives the cluster of a server, and `bound` is a new number. -/
structure ClusterInv (label : SockaddrIn → ℕ) (bound : ℕ) (chord : Chord) : Prop where
  address : ∀ a node, chord.parties a = some node → node.self.address = a
  distinct : ∀ a b node node', chord.parties a = some node → chord.parties b = some node' →
    node.self.id = node'.self.id → a = b
  next : ∀ a node y, chord.parties a = some node → node.next = some y →
    Runs chord.parties y ∧ y.address ≠ a ∧ label y.address = label a
  prev : ∀ a node q, chord.parties a = some node → node.prev = some q →
    Runs chord.parties q ∧ label q.address = label a
  messages : ∀ d ∈ chord.inFlight, InCluster label chord.parties d
  joins : (joiningLabels label chord.inFlight).Nodup
  bound : ∀ a, label a < bound

section Invariant

variable {label label' : SockaddrIn → ℕ} {bound : ℕ} {chord : Chord} {s y : ServerInfo}
  {d : Datagram SockaddrIn IntlMsg} {rest sends : List (Datagram SockaddrIn IntlMsg)}
  {p p' : DhtNode}

theorem ClusterInv.servers (h : ClusterInv label bound chord) : DistinctServers chord.parties :=
  ⟨h.address, h.distinct⟩

/-- Another server has another id. -/
theorem ClusterInv.id_ne (h : ClusterInv label bound chord) {srv : ServerInfo} {a : SockaddrIn}
    (hsrv : Runs chord.parties srv) (hp : chord.parties a = some p) (hne : srv.address ≠ a) :
    srv.id ≠ p.self.id := by
  obtain ⟨node, hnode, rfl⟩ := hsrv
  exact fun heq => hne (h.distinct _ _ node p hnode hp heq)

/-- A message stays in its cluster when clusters become one, and when a node changes that keeps its next
server, if it has one. -/
theorem InCluster.update {parties : SockaddrIn → Option DhtNode} {a : SockaddrIn}
    (h : InCluster label parties d) (hp : parties a = some p) (hself : p'.self = p.self)
    (hnone : p'.next = none → p.next = none) (hlabel : ∀ a b, label a = label b → label' a = label' b)
    (hle : ∀ a, label' a ≤ label a)
    (hkeep : d.payload.kind = .join → label' d.payload.srv.address = label d.payload.srv.address) :
    InCluster label' (Function.update parties a (some p')) d := by
  obtain ⟨src, dst, ⟨kind, srv⟩⟩ := d
  obtain ⟨⟨dstNode, hdst⟩, hsrv, hmsg⟩ := h
  have hback {b : SockaddrIn} {node : DhtNode} (hb : Function.update parties a (some p') b = some node)
      (hnext : node.next = none) : ∃ old, parties b = some old ∧ old.next = none := by
    rcases update_cases hb with ⟨rfl, rfl⟩ | ⟨-, hold⟩
    · exact ⟨p, hp, hnone hnext⟩
    · exact ⟨node, hold, hnext⟩
  refine ⟨?_, hsrv.update hp p' hself, ?_⟩
  · by_cases hb : dst = a
    · exact ⟨p', by rw [hb, Function.update_self]⟩
    · exact ⟨dstNode, by rw [Function.update_of_ne hb, hdst]⟩
  · cases kind with
    | join => exact (hle dst).trans_lt ((hkeep rfl).symm ▸ hmsg)
    | notify =>
        refine ⟨hlabel _ _ hmsg.1, fun node hnode hnext => ?_⟩
        obtain ⟨old, hold, holdNext⟩ := hback hnode hnext
        exact hmsg.2 old hold holdNext
    | stabilize =>
        refine ⟨hlabel _ _ hmsg.1, fun node hnode hnext => ?_⟩
        obtain ⟨old, hold, holdNext⟩ := hback hnode hnext
        exact hmsg.2 old hold holdNext

/-- What a reaction has to keep. Where clusters become one, `label'` are their numbers afterwards. -/
theorem ClusterInv.after (h : ClusterInv label bound chord) (hperm : chord.inFlight.Perm (d :: rest))
    (hp : chord.parties d.dst = some p) (hself : p'.self = p.self)
    (hnone : p'.next = none → p.next = none) (hlabel : ∀ a b, label a = label b → label' a = label' b)
    (hle : ∀ a, label' a ≤ label a)
    (hkeep : ∀ e ∈ rest, e.payload.kind = .join →
      label' e.payload.srv.address = label e.payload.srv.address)
    (hnext : ∀ y, p'.next = some y → Runs chord.parties y ∧ y.address ≠ d.dst ∧
      label' y.address = label' d.dst)
    (hprev : ∀ q, p'.prev = some q → Runs chord.parties q ∧ label' q.address = label' d.dst)
    (hjoins : (joiningLabels label' (rest ++ sends)).Nodup)
    (hsends : ∀ e ∈ sends, InCluster label' (Function.update chord.parties d.dst (some p')) e) :
    ClusterInv label' bound ⟨Function.update chord.parties d.dst (some p'), rest ++ sends⟩ := by
  constructor
  case address => exact (h.servers.update hp hself).address
  case distinct => exact (h.servers.update hp hself).distinct
  case next =>
    intro b node y hb hy
    rcases update_cases hb with ⟨rfl, rfl⟩ | ⟨-, hold⟩
    · obtain ⟨hruns, hne, hsame⟩ := hnext y hy
      exact ⟨hruns.update hp _ hself, hne, hsame⟩
    · obtain ⟨hruns, hne, hsame⟩ := h.next b node y hold hy
      exact ⟨hruns.update hp _ hself, hne, hlabel _ _ hsame⟩
  case prev =>
    intro b node q hb hq
    rcases update_cases hb with ⟨rfl, rfl⟩ | ⟨-, hold⟩
    · obtain ⟨hruns, hsame⟩ := hprev q hq
      exact ⟨hruns.update hp _ hself, hsame⟩
    · obtain ⟨hruns, hsame⟩ := h.prev b node q hold hq
      exact ⟨hruns.update hp _ hself, hlabel _ _ hsame⟩
  case messages =>
    intro e he
    rcases List.mem_append.mp he with he | he
    · exact (h.messages e (hperm.symm.subset (List.mem_cons_of_mem d he))).update hp hself hnone hlabel
        hle (hkeep e he)
    · exact hsends e he
  case joins => exact hjoins
  case bound => exact fun a => (hle a).trans_lt (h.bound a)

/-- The numbers of the clusters after that of `s` has become part of that of `a`. -/
def merge (label : SockaddrIn → ℕ) (s a : SockaddrIn) (b : SockaddrIn) : ℕ :=
  if label b = label s then label a else label b

theorem merge_of_eq {a b : SockaddrIn} (h : label b = label a) : merge label s.address a b = label a := by
  unfold merge
  split
  · rfl
  · exact h

theorem merge_self (a : SockaddrIn) : merge label s.address a s.address = label a := if_pos rfl

theorem joiningLabels_append (l l' : List (Datagram SockaddrIn IntlMsg)) :
    joiningLabels label (l ++ l') = joiningLabels label l ++ joiningLabels label l' := by
  rw [joiningLabels, joining_append, List.map_append]
  rfl

/-- The joining servers, the one of a delivered message first. -/
theorem ClusterInv.joins_perm (h : ClusterInv label bound chord) (hperm : chord.inFlight.Perm (d :: rest)) :
    (joiningLabels label (d :: rest)).Nodup :=
  ((joining_perm hperm).map _).nodup_iff.mp h.joins

/-- A server accepts another one, whose cluster becomes part of its own. -/
theorem ClusterInv.accept (h : ClusterInv label bound chord) (hperm : chord.inFlight.Perm (d :: rest))
    (hp : chord.parties d.dst = some p) (hd : d.payload = ⟨.join, s⟩) (hy : Runs chord.parties y)
    (hys : y.address ≠ s.address) (hylabel : label y.address = label d.dst) :
    ClusterInv (merge label s.address d.dst) bound
      ⟨Function.update chord.parties d.dst (some (p.link s)), rest ++ p.welcome y s⟩ := by
  have hpaddress := h.address _ p hp
  have hpruns : Runs chord.parties p.self := ⟨p, hpaddress.symm ▸ hp, rfl⟩
  obtain ⟨-, hsruns, hmsg⟩ := h.messages d (hperm.symm.subset List.mem_cons_self)
  rw [hd] at hsruns hmsg
  have hlt : label d.dst < label s.address := hmsg
  have hne : s.address ≠ d.dst := by
    intro heq
    rw [heq] at hlt
    exact lt_irrefl _ hlt
  have hnodup : (label s.address :: joiningLabels label rest).Nodup := by
    have hcons : joiningLabels label (d :: rest) = label s.address :: joiningLabels label rest := by
      rw [joiningLabels, joining, List.filterMap_cons, hd]
      rfl
    exact hcons ▸ h.joins_perm hperm
  rw [List.nodup_cons] at hnodup
  -- the other servers that join stay where they are
  have hkeep : ∀ srv ∈ joining rest, merge label s.address d.dst srv.address = label srv.address := by
    intro srv hsrv
    refine if_neg fun heq => hnodup.1 ?_
    rw [← heq]
    exact List.mem_map_of_mem hsrv
  have hlinked : ∀ node, Function.update chord.parties d.dst (some (p.link s)) p.self.address = some node →
      node.next ≠ none := by
    intro node hnode
    rw [hpaddress, Function.update_self] at hnode
    cases hnode
    exact Option.some_ne_none s
  refine h.after hperm hp rfl (by rintro ⟨⟩) (fun a b heq => by rw [merge, merge, heq]) (fun a => ?_)
    (fun e he hkind => hkeep _ ?_) (fun z hz => ?_) (fun q hq => ?_) ?_ ?_
  · unfold merge
    split
    · omega
    · exact le_rfl
  · exact List.mem_filterMap.mpr ⟨e, he, if_pos hkind⟩
  · cases hz
    exact ⟨hsruns, hne, (merge_self _).trans (merge_of_eq rfl).symm⟩
  · obtain ⟨hruns, hsame⟩ := h.prev _ p q hp hq
    exact ⟨hruns, (merge_of_eq hsame).trans (merge_of_eq rfl).symm⟩
  · have hwelcome : joiningLabels (merge label s.address d.dst) (p.welcome y s) = [] := rfl
    rw [joiningLabels_append, hwelcome, List.append_nil, joiningLabels, List.map_congr_left hkeep]
    exact hnodup.2
  · intro e he
    have hsdst := (hsruns.update hp (p.link s) rfl).exists_node
    rcases List.mem_cons.mp he with rfl | he
    · exact ⟨hsdst, hy.update hp _ rfl, (merge_of_eq hylabel).trans (merge_self _).symm,
        fun _ _ _ => hys⟩
    · rw [List.mem_singleton] at he
      subst he
      refine ⟨hsdst, hpruns.update hp _ rfl, ?_, hlinked⟩
      exact (merge_of_eq (congrArg label hpaddress)).trans (merge_self _).symm

/-- The delivery of a JOIN message. -/
theorem ClusterInv.join (h : ClusterInv label bound chord) (hperm : chord.inFlight.Perm (d :: rest))
    (hp : chord.parties d.dst = some p) (hd : d.payload = ⟨.join, s⟩) :
    (∃ label', ClusterInv label' bound ⟨Function.update chord.parties d.dst (some (respond p d.payload).1),
      rest ++ (respond p d.payload).2⟩) ∧ NextCloser p (respond p d.payload).1 := by
  have hpaddress := h.address _ p hp
  obtain ⟨-, hsruns, hmsg⟩ := h.messages d (hperm.symm.subset List.mem_cons_self)
  rw [hd] at hsruns hmsg ⊢
  have hlt : label d.dst < label s.address := hmsg
  have hne : s.address ≠ d.dst := by
    intro heq
    rw [heq] at hlt
    exact lt_irrefl _ hlt
  have hnext (y : ServerInfo) (hy : p.next = some y) : y.id ≠ p.self.id := by
    obtain ⟨hruns, hyne, -⟩ := h.next _ p y hp hy
    exact h.id_ne hruns hp hyne
  rcases respond_join_cases hnext with ⟨hnone, heq⟩ | ⟨y, hy, ⟨harc, heq⟩ | heq⟩
  · rw [heq]
    refine ⟨⟨_, h.accept hperm hp hd ⟨p, hpaddress.symm ▸ hp, rfl⟩ (by rwa [hpaddress, ne_comm])
      (congrArg label hpaddress)⟩, fun y hy => ?_⟩
    rw [hnone] at hy
    cases hy
  · obtain ⟨hruns, -, hsame⟩ := h.next _ p y hp hy
    rw [heq]
    refine ⟨⟨_, h.accept hperm hp hd hruns ?_ hsame⟩, fun y' hy' => ⟨s, rfl, .inr ⟨?_, ?_⟩⟩⟩
    · intro haddress
      -- `s` lies before `y` on the way from the server
      obtain ⟨node, hnode, rfl⟩ := hruns
      obtain ⟨node', hnode', rfl⟩ := hsruns
      rw [haddress, hnode'] at hnode
      cases hnode
      exact lt_irrefl _ harc
    · exact offset_pos fun hposition =>
        h.id_ne hsruns hp hne (UInt16.toFin_inj.mp hposition.symm)
    · rw [hy] at hy'
      cases hy'
      exact harc
  · obtain ⟨hruns, -, hsame⟩ := h.next _ p y hp hy
    rw [heq]
    have hkinds : joiningLabels label (rest ++ [p.tell y ⟨.join, s⟩]) =
        joiningLabels label rest ++ [label s.address] := by
      rw [joiningLabels_append]
      rfl
    have hcons : joiningLabels label (d :: rest) = [label s.address] ++ joiningLabels label rest := by
      rw [joiningLabels, joining, List.filterMap_cons, hd]
      rfl
    refine ⟨⟨label, h.after hperm hp rfl (fun hnone => hnone) (fun _ _ heq => heq) (fun _ => le_rfl)
      (fun _ _ _ => rfl) (fun z hz => h.next _ p z hp hz) (fun q hq => h.prev _ p q hp hq) ?_ ?_⟩,
      .of_eq rfl⟩
    · rw [hkinds]
      exact (List.perm_append_comm.nodup_iff).mp (hcons ▸ h.joins_perm hperm)
    · intro e he
      rw [List.mem_singleton] at he
      subst he
      exact ⟨(hruns.update hp p rfl).exists_node, hsruns.update hp p rfl, hsame.trans_lt hlt⟩

theorem joiningLabels_cons_of_ne {l : List (Datagram SockaddrIn IntlMsg)} (hd : d.payload.kind ≠ .join) :
    joiningLabels label (d :: l) = joiningLabels label l := by
  rw [joiningLabels, joining_cons_of_ne hd]
  rfl

/-- The delivery of a NOTIFY message. -/
theorem ClusterInv.notify (h : ClusterInv label bound chord) (hperm : chord.inFlight.Perm (d :: rest))
    (hp : chord.parties d.dst = some p) (hd : d.payload = ⟨.notify, s⟩) :
    ClusterInv label bound ⟨Function.update chord.parties d.dst (some (respond p d.payload).1),
      rest ++ (respond p d.payload).2⟩ ∧ NextCloser p (respond p d.payload).1 := by
  have hpaddress := h.address _ p hp
  have hjoins := h.joins_perm hperm
  rw [joiningLabels_cons_of_ne (by rw [hd]; rintro ⟨⟩)] at hjoins
  obtain ⟨-, hsruns, hmsg⟩ := h.messages d (hperm.symm.subset List.mem_cons_self)
  rw [hd] at hsruns hmsg ⊢
  obtain ⟨hlabel, hself⟩ := hmsg
  -- the clusters stay as they are
  have hafter (p' : DhtNode) (sends : List (Datagram SockaddrIn IntlMsg)) (hself' : p'.self = p.self)
      (hnone : p'.next = none → p.next = none) :=
    @ClusterInv.after label label bound chord d rest sends p p' h hperm hp hself' hnone
      (fun _ _ heq => heq) (fun _ => le_rfl) fun _ _ _ => rfl
  rcases respond_notify_cases (p := p) (z := s) with ⟨hnext, heq⟩ | ⟨heq, hcloser⟩
  · rw [heq]
    refine ⟨hafter p [] rfl (fun hnone => hnone) (fun y hy => h.next _ p y hp hy)
      (fun q hq => h.prev _ p q hp hq) ?_ (by rintro _ ⟨⟩), .of_eq rfl⟩
    rwa [List.append_nil]
  · rw [heq]
    have hne : s.address ≠ d.dst := by
      cases hnext : p.next with
      | none => exact hself p hp hnext
      | some y =>
          intro haddress
          obtain ⟨node, hnode, rfl⟩ := hsruns
          rw [haddress, hp] at hnode
          cases hnode
          exact (hcloser y hnext).1 rfl
    refine ⟨hafter (p.link s) _ rfl (by rintro ⟨⟩) ?_ (fun q hq => h.prev _ p q hp hq) ?_ ?_,
      fun y hy => ⟨s, rfl, .inr ⟨?_, (hcloser y hy).2⟩⟩⟩
    · rintro y ⟨⟩
      exact ⟨hsruns, hne, hlabel⟩
    · rw [joiningLabels_append]
      exact (List.append_nil _).symm ▸ hjoins
    · intro e he
      rw [List.mem_singleton] at he
      subst he
      have hpruns : Runs chord.parties p.self := ⟨p, hpaddress.symm ▸ hp, rfl⟩
      refine ⟨(hsruns.update hp (p.link s) rfl).exists_node, hpruns.update hp (p.link s) rfl,
        (congrArg label hpaddress).trans hlabel.symm, fun node hnode => ?_⟩
      rw [hpaddress, Function.update_self] at hnode
      cases hnode
      exact Option.some_ne_none s
    · exact offset_pos fun hposition =>
        h.id_ne hsruns hp hne (UInt16.toFin_inj.mp hposition.symm)

/-- The delivery of a STABILIZE message. -/
theorem ClusterInv.stabilize (h : ClusterInv label bound chord) (hperm : chord.inFlight.Perm (d :: rest))
    (hp : chord.parties d.dst = some p) (hd : d.payload = ⟨.stabilize, s⟩) :
    ClusterInv label bound ⟨Function.update chord.parties d.dst (some (respond p d.payload).1),
      rest ++ (respond p d.payload).2⟩ ∧ NextCloser p (respond p d.payload).1 := by
  have hjoins := h.joins_perm hperm
  rw [joiningLabels_cons_of_ne (by rw [hd]; rintro ⟨⟩)] at hjoins
  obtain ⟨-, hsruns, hmsg⟩ := h.messages d (hperm.symm.subset List.mem_cons_self)
  rw [hd] at hsruns hmsg ⊢
  obtain ⟨hlabel, hlinked⟩ := hmsg
  obtain ⟨q, heq, hq⟩ := respond_stabilize_cases (p := p) (w := s)
  have hprev : Runs chord.parties q ∧ label q.address = label d.dst := by
    rcases hq with ⟨hq, -⟩ | ⟨rfl, -⟩
    · exact h.prev _ p q hp hq
    · exact ⟨hsruns, hlabel⟩
  rw [heq]
  refine ⟨h.after hperm hp rfl (fun hnone => hnone) (fun _ _ heq => heq) (fun _ => le_rfl)
    (fun _ _ _ => rfl) (fun y hy => h.next _ p y hp hy) ?_ ?_ ?_, .of_eq rfl⟩
  · rintro r ⟨⟩
    exact hprev
  · rw [joiningLabels_append]
    exact (List.append_nil _).symm ▸ hjoins
  · intro e he
    rw [List.mem_singleton] at he
    subst he
    refine ⟨(hsruns.update hp { p with prev := some q } rfl).exists_node,
      hprev.1.update hp { p with prev := some q } rfl, hprev.2.trans hlabel.symm, fun node hnode hnext => ?_⟩
    rcases update_cases hnode with ⟨haddress, rfl⟩ | ⟨-, hold⟩
    · exact absurd hnext (hlinked p ((congrArg chord.parties haddress).trans hp))
    · exact absurd hnext (hlinked node hold)

/-- Every delivery keeps the invariant and moves the next pointer closer. -/
theorem ClusterInv.deliver (h : ClusterInv label bound chord) (hperm : chord.inFlight.Perm (d :: rest))
    (hp : chord.parties d.dst = some p) :
    (∃ label', ClusterInv label' bound ⟨Function.update chord.parties d.dst (some (respond p d.payload).1),
      rest ++ (respond p d.payload).2⟩) ∧ NextCloser p (respond p d.payload).1 := by
  obtain ⟨kind, s, hd⟩ : ∃ kind s, d.payload = ⟨kind, s⟩ := ⟨_, _, rfl⟩
  cases kind with
  | join => exact h.join hperm hp hd
  | notify => exact (h.notify hperm hp hd).imp_left fun hafter => ⟨label, hafter⟩
  | stabilize => exact (h.stabilize hperm hp hd).imp_left fun hafter => ⟨label, hafter⟩

/-- A message stays inside its cluster when a server is started in a cluster of its own. -/
theorem InCluster.start {parties : SockaddrIn → Option DhtNode} {a : SockaddrIn}
    (h : InCluster label parties d) (hfresh : parties a = none) :
    InCluster (Function.update label a bound) (Function.update parties a (some p')) d := by
  obtain ⟨src, dst, ⟨kind, srv⟩⟩ := d
  obtain ⟨⟨dstNode, hdst⟩, hsrv, hmsg⟩ := h
  obtain ⟨srvNode, hsrvNode⟩ := hsrv.exists_node
  have hdst_ne : dst ≠ a := ne_of_fresh hfresh hdst
  have hsrv_ne : srv.address ≠ a := ne_of_fresh hfresh hsrvNode
  refine ⟨⟨dstNode, (Function.update_of_ne hdst_ne _ _).trans hdst⟩, running_start hfresh hsrv, ?_⟩
  cases kind with
  | join =>
      change Function.update label a bound dst < Function.update label a bound srv.address
      rwa [Function.update_of_ne hdst_ne, Function.update_of_ne hsrv_ne]
  | notify =>
      refine ⟨?_, fun node hnode => ?_⟩
      · rw [Function.update_of_ne hdst_ne, Function.update_of_ne hsrv_ne, hmsg.1]
      · rw [Function.update_of_ne hdst_ne] at hnode
        exact hmsg.2 node hnode
  | stabilize =>
      refine ⟨?_, fun node hnode => ?_⟩
      · rw [Function.update_of_ne hdst_ne, Function.update_of_ne hsrv_ne, hmsg.1]
      · rw [Function.update_of_ne hsrv_ne] at hnode
        exact hmsg.2 node hnode

/-- A server with a new address and a new id is started, in a cluster of its own. -/
theorem ClusterInv.start (h : ClusterInv label bound chord) (hfresh : chord.parties s.address = none)
    (hid : ∀ a node, chord.parties a = some node → node.self.id ≠ s.id) {registration : SockaddrIn}
    (hregistration : ∃ node, chord.parties registration = some node) :
    ClusterInv (Function.update label s.address bound) (bound + 1) (chord.start s registration) := by
  have hlabel {a : SockaddrIn} (ha : ∃ node, chord.parties a = some node) :
      Function.update label s.address bound a = label a := by
    obtain ⟨node, hnode⟩ := ha
    exact Function.update_of_ne (ne_of_fresh hfresh hnode) _ _
  have hjoining : joining (chord.start s registration).inFlight = joining chord.inFlight ++ [s] :=
    joining_append _ _
  constructor
  case address => exact (h.servers.start hid).address
  case distinct => exact (h.servers.start hid).distinct
  case next =>
    intro a node y ha hy
    rcases update_cases ha with ⟨rfl, rfl⟩ | ⟨-, hold⟩
    · cases hy
    · obtain ⟨hruns, hyne, hsame⟩ := h.next a node y hold hy
      refine ⟨running_start hfresh hruns, hyne, ?_⟩
      rw [hlabel hruns.exists_node, hlabel ⟨node, hold⟩, hsame]
  case prev =>
    intro a node q ha hq
    rcases update_cases ha with ⟨rfl, rfl⟩ | ⟨-, hold⟩
    · cases hq
    · obtain ⟨hruns, hsame⟩ := h.prev a node q hold hq
      refine ⟨running_start hfresh hruns, ?_⟩
      rw [hlabel hruns.exists_node, hlabel ⟨node, hold⟩, hsame]
  case messages =>
    intro e he
    rcases List.mem_append.mp he with he | he
    · exact (h.messages e he).start hfresh
    · rw [List.mem_singleton] at he
      subst he
      obtain ⟨node, hnode⟩ := hregistration
      refine ⟨⟨node, (Function.update_of_ne (ne_of_fresh hfresh hnode) _ _).trans hnode⟩,
        ⟨⟨s, none, none⟩, Function.update_self _ _ _, rfl⟩, ?_⟩
      change Function.update label s.address bound registration < Function.update label s.address bound s.address
      rw [hlabel ⟨node, hnode⟩, Function.update_self]
      exact h.bound registration
  case joins =>
    have hold : (joining chord.inFlight).map (fun t => Function.update label s.address bound t.address) =
        joiningLabels label chord.inFlight := by
      refine List.map_congr_left fun t ht => hlabel ?_
      obtain ⟨e, he, het⟩ := List.mem_filterMap.mp ht
      split at het
      · cases het
        exact (h.messages e he).2.1.exists_node
      · cases het
    rw [joiningLabels, hjoining, List.map_append, hold, List.nodup_append]
    refine ⟨h.joins, List.nodup_singleton _, fun n hn n' hn' => ?_⟩
    obtain ⟨t, -, rfl⟩ := List.mem_map.mp hn
    rw [List.map_singleton, List.mem_singleton, Function.update_self] at hn'
    rw [hn']
    exact (h.bound _).ne
  case bound =>
    intro a
    rw [Function.update_apply]
    split
    · exact Nat.lt_succ_self bound
    · exact (h.bound a).trans (Nat.lt_succ_self bound)

theorem clusterInv_create (creator : ServerInfo) : ClusterInv (fun _ => 0) 1 (Chord.create creator) := by
  have honly (a : SockaddrIn) (node : DhtNode) (ha : (Chord.create creator).parties a = some node) :=
    Chord.create_parties ha
  constructor
  case address => exact (distinctServers_create creator).address
  case distinct => exact (distinctServers_create creator).distinct
  case next =>
    intro a node y ha hy
    rw [(honly a node ha).2] at hy
    cases hy
  case prev =>
    intro a node q ha hq
    rw [(honly a node ha).2] at hq
    cases hq
  case messages => rintro _ ⟨⟩
  case joins => exact List.nodup_nil
  case bound => exact fun _ => Nat.zero_lt_one

end Invariant

/-! ### The measure -/

/-- How far a server's next pointer can still move. -/
def nextDistance (node : DhtNode) : ℕ :=
  match node.next with
  | none => UInt16.size
  | some y => offset node.self.position y.position

/-- How many messages an internal message asks for without another effect. -/
def messageWeight (payload : Bytes) : ℕ := if stabilizeMask &&& payload.getD 0 0 ≠ 0 then 2 else 1

/-- Three for each step that a next pointer can still move, and the weights of the messages in flight. -/
def ringMeasure (servers : List SockaddrIn) (sys : System) : ℕ :=
  3 * (servers.map fun a => ((nodes sys a).map nextDistance).getD 0).sum +
    (sys.inFlight.map fun d => messageWeight d.payload).sum

/-- The address of the server that an action starts. -/
def StartupAction.started : StartupAction → Option SockaddrIn
  | .start self _ => some self.address
  | .deliver _ _ => none

/-- The addresses of the servers that have been started. -/
def started (creator : ServerInfo) (actions : List StartupAction) : List SockaddrIn :=
  creator.address :: actions.filterMap StartupAction.started

section Measure

theorem messageWeight_encode (m : IntlMsg) :
    messageWeight m.encode = if m.kind = .stabilize then 2 else 1 := by
  change (if stabilizeMask &&& (internalMask ||| m.kind.mask) ≠ 0 then 2 else 1) = _
  cases m.kind <;> decide

/-- What a NOTIFY or STABILIZE message makes a server send weighs less than the message, or its next
pointer moves by more than that. -/
theorem respond_decreases (p : DhtNode) {m : IntlMsg} (hkind : m.kind ≠ .join) :
    nextDistance (respond p m).1 ≤ nextDistance p ∧ joining (respond p m).2 = [] ∧
      3 * nextDistance (respond p m).1 + ((respond p m).2.map fun d => messageWeight d.payload.encode).sum <
        3 * nextDistance p + messageWeight m.encode := by
  obtain ⟨kind, srv⟩ := m
  rw [messageWeight_encode]
  cases kind with
  | join => exact absurd rfl hkind
  | notify =>
      rcases respond_notify_cases (p := p) (z := srv) with ⟨-, heq⟩ | ⟨heq, hcloser⟩
      · rw [heq]
        exact ⟨le_rfl, rfl, by simp⟩
      · have hlt : nextDistance (p.link srv) < nextDistance p := by
          change offset p.self.position srv.position < nextDistance p
          unfold nextDistance
          split
          · exact offset_lt _ _
          · rename_i y hy
            exact (hcloser y hy).2
        rw [heq]
        refine ⟨hlt.le, rfl, ?_⟩
        simp only [DhtNode.tell, List.map_singleton, List.sum_singleton, messageWeight_encode, if_true,
          reduceCtorEq, if_false]
        omega
  | stabilize =>
      obtain ⟨q, heq, -⟩ := respond_stabilize_cases (p := p) (w := srv)
      rw [heq]
      have hsame : nextDistance { p with prev := some q } = nextDistance p := rfl
      refine ⟨le_rfl, rfl, ?_⟩
      simp only [DhtNode.tell, List.map_singleton, List.sum_singleton, messageWeight_encode, if_true,
        reduceCtorEq, if_false, hsame]
      omega

/-- A sum falls by what one of its members falls by. -/
theorem sum_map_le {α : Type*} {f g : α → ℕ} {a : α} {k : ℕ} {l : List α} (hle : ∀ b, g b ≤ f b)
    (ha : a ∈ l) (hk : g a + k ≤ f a) : (l.map g).sum + k ≤ (l.map f).sum := by
  induction l with
  | nil => cases ha
  | cons b l ih =>
      rw [List.map_cons, List.map_cons, List.sum_cons, List.sum_cons]
      rcases List.mem_cons.mp ha with rfl | ha
      · have hrest := List.sum_le_sum fun c (_ : c ∈ l) => hle c
        omega
      · have hrest := ih ha
        have hb := hle b
        omega

theorem ringMeasure_startup (servers : List SockaddrIn) (chord : Chord) :
    ringMeasure servers chord.startup =
      3 * (servers.map fun a => ((chord.parties a).map nextDistance).getD 0).sum +
        (chord.inFlight.map fun d => messageWeight d.payload.encode).sum := by
  rw [ringMeasure, nodes_toSystem]
  change _ + ((chord.inFlight.map (Datagram.map IntlMsg.encode)).map _).sum = _
  rw [List.map_map]
  rfl

/-- Every delivery decreases the measure while no JOIN message is in flight. -/
theorem ringMeasure_lt {servers : List SockaddrIn} {chord : Chord} {d : Datagram SockaddrIn IntlMsg}
    {rest : List (Datagram SockaddrIn IntlMsg)} {p : DhtNode} (hperm : chord.inFlight.Perm (d :: rest))
    (hp : chord.parties d.dst = some p) (hserver : d.dst ∈ servers) (hkind : d.payload.kind ≠ .join) :
    ringMeasure servers (Chord.startup ⟨Function.update chord.parties d.dst (some (respond p d.payload).1),
      rest ++ (respond p d.payload).2⟩) < ringMeasure servers chord.startup := by
  obtain ⟨hle, -, hlt⟩ := respond_decreases p hkind
  have hsum := sum_map_le (k := nextDistance p - nextDistance (respond p d.payload).1)
    (f := fun a => ((chord.parties a).map nextDistance).getD 0)
    (g := fun a => ((Function.update chord.parties d.dst (some (respond p d.payload).1) a).map
      nextDistance).getD 0) (fun b => ?_) hserver ?_
  · rw [ringMeasure_startup, ringMeasure_startup]
    have hflight := (hperm.map fun d => messageWeight d.payload.encode).sum_eq
    rw [List.map_cons, List.sum_cons] at hflight
    dsimp only
    rw [List.map_append, List.sum_append]
    omega
  · by_cases hb : b = d.dst
    · subst hb
      rw [Function.update_self, hp]
      exact hle
    · rw [Function.update_of_ne hb]
  · rw [Function.update_self, hp]
    exact (Nat.add_sub_of_le hle).le

end Measure

/-! ### Runs -/

section Runs

variable {sys next : System}

/-- The system consists of the nodes of a network that keeps the invariant. -/
def Clustered (sys : System) : Prop :=
  ∃ label bound chord, sys = Chord.startup chord ∧ ClusterInv label bound chord

/-- A delivery in a system of nodes. -/
theorem Clustered.serverStep (h : Clustered sys) {event : (Nat → UInt8) × Datagram SockaddrIn Bytes}
    (hstep : ServerStep sys event next) : ∃ label bound chord d rest p,
      sys = Chord.startup chord ∧ ClusterInv label bound chord ∧ chord.inFlight.Perm (d :: rest) ∧
      chord.parties d.dst = some p ∧
      next = Chord.startup ⟨Function.update chord.parties d.dst (some (respond p d.payload).1),
        rest ++ (respond p d.payload).2⟩ := by
  obtain ⟨label, bound, chord, rfl, h⟩ := h
  obtain ⟨heap, d⟩ := event
  obtain ⟨m, next, hnext, -, rfl⟩ := Chord.step_of_serverStep _ hstep
  obtain ⟨rest, p, hperm, hp, rfl⟩ := hnext.elim
  exact ⟨label, bound, chord, m, rest, p, rfl, h, hperm, hp, rfl⟩

/-- Every step keeps the invariant and every node, whose pointers move only towards it. -/
theorem Clustered.step (h : Clustered sys) {action : StartupAction} (hstep : StartupStep sys action next) :
    Clustered next ∧ ∀ a node, nodes sys a = some node → ∃ node', nodes next a = some node' ∧
      node'.self = node.self ∧ NextCloser node node' ∧ PrevNotFurther node node' := by
  cases hstep with
  | start hfresh hid hregistration =>
      obtain ⟨label, bound, chord, rfl, h⟩ := h
      rw [nodes_toSystem] at hfresh hid hregistration
      rw [join_startup]
      refine ⟨⟨_, _, _, rfl, h.start hfresh hid hregistration⟩, fun a node ha => ?_⟩
      rw [nodes_toSystem] at ha ⊢
      exact ⟨node, (Function.update_of_ne (ne_of_fresh hfresh ha) _ _).trans ha, rfl, .of_eq rfl, .of_eq rfl⟩
  | deliver hstep =>
      obtain ⟨label, bound, chord, d, rest, p, rfl, h, hperm, hp, rfl⟩ := h.serverStep hstep
      obtain ⟨⟨label', hafter⟩, hcloser⟩ := h.deliver hperm hp
      refine ⟨⟨label', bound, _, rfl, hafter⟩, fun a node ha => ?_⟩
      rw [nodes_toSystem] at ha ⊢
      by_cases haddress : a = d.dst
      · rw [haddress, hp] at ha
        cases ha
        exact ⟨_, haddress ▸ Function.update_self _ _ _, respond_self p _, hcloser,
          prevNotFurther_respond _⟩
      · exact ⟨node, (Function.update_of_ne haddress _ _).trans ha, rfl, .of_eq rfl, .of_eq rfl⟩

/-- A server that runs after actions ran before them or has been started by one of them. -/
theorem nodes_of_run {start : System} {actions : List StartupAction} (hrun : Run StartupStep start actions sys)
    {a : SockaddrIn} (ha : nodes sys a ≠ none) :
    nodes start a ≠ none ∨ a ∈ actions.filterMap StartupAction.started := by
  induction hrun with
  | nil s => exact .inl ha
  | @cons s t u action actions hstep hsteps ih =>
      have hmore : a ∈ actions.filterMap StartupAction.started →
          a ∈ (action :: actions).filterMap StartupAction.started := by
        intro hmem
        rw [List.filterMap_cons]
        split
        · exact hmem
        · exact List.mem_cons_of_mem _ hmem
      rcases ih ha with ht | hmem
      swap
      · exact .inr (hmore hmem)
      cases hstep with
      | start hfresh hid hregistration =>
          rename_i self registration
          by_cases heq : a = self.address
          · exact .inr (List.mem_cons.mpr (.inl heq))
          · have hkept : nodes (join s self registration.address) a = nodes s a :=
              congrArg (Option.map _) (Function.update_of_ne heq _ _)
            exact .inl (hkept ▸ ht)
      | deliver hstep =>
          refine .inl fun hnone => ht ?_
          rw [nodes, Option.map_eq_none_iff] at hnone ⊢
          exact hstep.parties_none hnone

/-- The servers that run are those that have been started. -/
theorem started_of_run {creator : ServerInfo} {actions : List StartupAction}
    (hrun : Run StartupStep (createChord creator) actions sys) {a : SockaddrIn} (ha : nodes sys a ≠ none) :
    a ∈ started creator actions := by
  rcases nodes_of_run hrun ha with hstart | hmem
  · refine List.mem_cons.mpr (.inl ?_)
    by_contra hne
    rw [nodes_createChord, Function.update_of_ne hne] at hstart
    exact hstart rfl
  · exact List.mem_cons_of_mem _ hmem

/-- A system in which no server joins any more. -/
def AllJoined (servers : List SockaddrIn) (sys : System) : Prop :=
  Clustered sys ∧ (∀ d ∈ sys.inFlight, ¬IsJoin d.payload) ∧ ∀ a, nodes sys a ≠ none → a ∈ servers

theorem AllJoined.step {servers : List SockaddrIn} (h : AllJoined servers sys)
    {event : (Nat → UInt8) × Datagram SockaddrIn Bytes} (hstep : ServerStep sys event next) :
    AllJoined servers next ∧ ringMeasure servers next < ringMeasure servers sys := by
  obtain ⟨hclustered, hjoin, hservers⟩ := h
  obtain ⟨label, bound, chord, d, rest, p, rfl, h, hperm, hp, rfl⟩ := hclustered.serverStep hstep
  have hkind (e : Datagram SockaddrIn IntlMsg) (he : e ∈ chord.inFlight) : e.payload.kind ≠ .join :=
    fun heq => hjoin _ (List.mem_map_of_mem he) ((isJoin_encode e.payload).mpr heq)
  rw [nodes_toSystem] at hservers
  have hd := hkind d (hperm.symm.subset List.mem_cons_self)
  obtain ⟨-, hsends, -⟩ := respond_decreases p hd
  obtain ⟨⟨label', hafter⟩, -⟩ := h.deliver hperm hp
  refine ⟨⟨⟨label', bound, _, rfl, hafter⟩, ?_, ?_⟩, ringMeasure_lt hperm hp
    (hservers _ (by rw [hp]; exact Option.some_ne_none p)) hd⟩
  · intro e' he'
    obtain ⟨e, he, rfl⟩ := List.mem_map.mp he'
    intro hjoinMsg
    have hkindJoin := (isJoin_encode e.payload).mp hjoinMsg
    rcases List.mem_append.mp he with he | he
    · exact hkind e (hperm.symm.subset (List.mem_cons_of_mem d he)) hkindJoin
    · have hmem : e.payload.srv ∈ joining (respond p d.payload).2 :=
        List.mem_filterMap.mpr ⟨e, he, if_pos hkindJoin⟩
      rw [hsends] at hmem
      cases hmem
  · intro a ha
    rw [nodes_toSystem] at ha
    by_cases haddress : a = d.dst
    · exact haddress ▸ hservers _ (by rw [hp]; exact Option.some_ne_none p)
    · have hkept : Function.update chord.parties d.dst (some (respond p d.payload).1) a = chord.parties a :=
        Function.update_of_ne haddress _ _
      exact hservers a (hkept ▸ ha)

/-- **Ring maintenance comes to rest.** In every run in which servers with distinct ids join in any order,
every step keeps the servers that run, moves no next pointer but strictly closer clockwise, never to the
server itself, and no previous pointer further away. Once no JOIN message is in flight and no server is
started, every delivery decreases the measure, so that the number of messages that can still be handled
is bounded by it, and all are handled in the end. -/
theorem maintenance_quiesces (creator : ServerInfo) (actions : List StartupAction) (sys : System)
    (hrun : Run StartupStep (createChord creator) actions sys) :
    (∀ action next, StartupStep sys action next → ∀ a node, nodes sys a = some node →
      ∃ node', nodes next a = some node' ∧ node'.self = node.self ∧ NextCloser node node' ∧
        PrevNotFurther node node') ∧
    ((∀ d ∈ sys.inFlight, ¬IsJoin d.payload) →
      (∀ steps last event next, Run ServerStep sys steps last → ServerStep last event next →
        ringMeasure (started creator actions) next < ringMeasure (started creator actions) last) ∧
      (∀ steps last, Run ServerStep sys steps last →
        steps.length ≤ ringMeasure (started creator actions) sys) ∧
      Inevitably ServerStep (fun last => last.inFlight = []) sys) := by
  have hclustered : Clustered sys := by
    have hstep (s : System) (action : StartupAction) (t : System) (hs : Clustered s)
        (hst : StartupStep s action t) : Clustered t := (hs.step hst).1
    exact hrun.invariant hstep ⟨_, _, _, createChord_eq creator, clusterInv_create creator⟩
  refine ⟨fun action next hstep => (hclustered.step hstep).2, fun hjoin => ?_⟩
  have hjoined : AllJoined (started creator actions) sys :=
    ⟨hclustered, hjoin, fun a ha => started_of_run hrun ha⟩
  have hinv (s : System) (event : (Nat → UInt8) × Datagram SockaddrIn Bytes) (t : System)
      (hs : AllJoined (started creator actions) s) (hst : ServerStep s event t) :
      AllJoined (started creator actions) t := (hs.step hst).1
  have hdec (s : System) (event : (Nat → UInt8) × Datagram SockaddrIn Bytes) (t : System)
      (hs : AllJoined (started creator actions) s) (hst : ServerStep s event t) :
      ringMeasure (started creator actions) t < ringMeasure (started creator actions) s := (hs.step hst).2
  refine ⟨fun steps last event next hsteps hst => hdec _ _ _ (hsteps.invariant hinv hjoined) hst,
    fun steps last hsteps => ?_, inevitably_of_measure _ hinv hdec (fun s hs => ?_) hjoined⟩
  · exact (Nat.le_add_right _ _).trans (hsteps.length_le _ hinv hdec hjoined)
  · obtain ⟨⟨label, bound, chord, rfl, h⟩, -, -⟩ := hs
    cases hflight : chord.inFlight with
    | nil => exact .inl (List.map_eq_nil_iff.mpr hflight)
    | cons d rest =>
        right
        obtain ⟨node, hnode⟩ := (h.messages d (hflight ▸ List.mem_cons_self)).1
        have hmem : d.map IntlMsg.encode ∈ (Chord.startup chord).inFlight :=
          List.mem_map_of_mem (hflight ▸ List.mem_cons_self)
        obtain ⟨next, hnext⟩ := Deliver.of_mem react zeroed hmem
          (show (Chord.startup chord).parties d.dst = _ by
            change (chord.parties d.dst).map _ = _
            rw [hnode, Option.map_some])
        exact ⟨_, next, hnext⟩

/-- Two servers have joined the first one at the same time, and four messages are in flight. -/
theorem maintenance_quiesces_threeServers :
    ∃ actions sys, Run StartupStep (createChord (testServer 0)) actions sys ∧ sys.inFlight.length = 4 ∧
      Inevitably ServerStep (fun last => last.inFlight = []) sys := by
  have hend : (([0, 0, 0, 1].foldlM (Chord.deliverAt fun _ _ => true) (threeStarted (testServer 0))).map
      fun c => (c.inFlight.length, c.inFlight.all fun d => d.payload.kind != .join)) = some (4, true) := by
    decide +kernel
  obtain ⟨chord, hchord, hfacts⟩ := Option.map_eq_some_iff.mp hend
  obtain ⟨hlength, hkinds⟩ := Prod.mk.inj hfacts
  obtain ⟨actions, hstart⟩ := threeStarted_run (fun _ _ => True) (fun _ _ _ => trivial) (.inl rfl)
  obtain ⟨deliveries, hdeliver⟩ := Chord.run_deliverAt (fun _ _ => True)
    (fun _ _ _ _ _ _ => trivial) hchord
  have hrun := (hstart.append hdeliver).mono fun _ _ _ hstep => hstep.2
  refine ⟨_, _, hrun, (List.length_map _).trans hlength, ?_⟩
  refine ((maintenance_quiesces (testServer 0) _ _ hrun).2 fun d hd => ?_).2.2
  obtain ⟨m, hm, rfl⟩ := List.mem_map.mp hd
  rw [show (m.map IntlMsg.encode).payload = m.payload.encode from rfl, isJoin_encode]
  simpa using List.all_eq_true.mp hkinds m hm

end Runs

end ComputerNetworking.Dht
