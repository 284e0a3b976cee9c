import ComputerNetworking.ChordRing

/-! One server joins a ring.

The JOIN message is forwarded to the server `x` whose arc contains the id of the new server `j`. From
then on two chains of messages run side by side: `x` introduces its old next server `y` to `j`, which
stabilizes with `y`, which notifies `j`; and `x` stabilizes with `j`, which notifies `x`. `shaken` gives
the nodes when the chains have come to the given points. -/

namespace ComputerNetworking.Dht

open Clockwise Datagrams Transition

/-- The prev pointers are the inverse of the next pointers. -/
def Inverse (nodes : SockaddrIn → Option DhtNode) : Prop :=
  ∀ address node y, nodes address = some node → node.next = some y →
    ∃ ynode, nodes y.address = some ynode ∧ ynode.prev = some node.self

/-- One server alone, or a ring of two or more with prev pointers. -/
inductive WellFormedRing (nodes : SockaddrIn → Option DhtNode) (ring : List ServerInfo) : Prop where
  | alone (srv : ServerInfo) (hring : ring = [srv])
      (hnodes : nodes = Function.update (fun _ => none) srv.address (some ⟨srv, none, none⟩))
  | ring (hlen : 2 ≤ ring.length) (hring : ClockwiseRing nodes ring) (hprev : Inverse nodes)

/-- The place at which a server joins: behind `x` and before `y`, which is `x` if it is alone. -/
structure Gap (nodes : SockaddrIn → Option DhtNode) (M : Finset ServerInfo) (x y j : ServerInfo) :
    Prop where
  members : Members nodes M
  fresh : nodes j.address = none
  distinct : ∀ srv ∈ M, srv.position ≠ j.position
  memX : x ∈ M
  memY : y ∈ M
  accepts : ∀ node, nodes x.address = some node →
    respond node ⟨.join, j⟩ = (node.link j, node.welcome y j)
  prevY : ∀ node, nodes y.address = some node → ∀ prev, node.prev = some prev →
    isInRange prev y j = true
  left : IsNext ServerInfo.position (insert j M) x j
  right : IsNext ServerInfo.position (insert j M) j y
  other : ∀ address node, nodes address = some node → address ≠ x.address →
    ∃ z, node.next = some z ∧ IsNext ServerInfo.position (insert j M) node.self z ∧ z ≠ y ∧
      ∃ znode, nodes z.address = some znode ∧ znode.prev = some node.self

/-- A server that runs does not have an address at which none runs. -/
theorem ne_of_fresh {parties : SockaddrIn → Option DhtNode} {a b : SockaddrIn} {node : DhtNode}
    (hfresh : parties a = none) (hb : parties b = some node) : b ≠ a := by
  rintro rfl
  rw [hfresh] at hb
  cases hb

section Handshake

variable (nodes : SockaddrIn → Option DhtNode) (x y j : ServerInfo)

/-- The nodes after `a` messages of the first chain and `b` of the second one. -/
def shaken (a b : Nat) (address : SockaddrIn) : Option DhtNode :=
  if address = j.address then
    some ⟨j, if 1 ≤ b then some x else none, if 1 ≤ a then some y else none⟩
  else
    (nodes address).map fun node => { node with
      next := if address = x.address then some j else node.next
      prev := if 2 ≤ a ∧ address = y.address then some j else node.prev }

theorem shaken_joined (a b : Nat) : shaken nodes x y j a b j.address =
    some ⟨j, if 1 ≤ b then some x else none, if 1 ≤ a then some y else none⟩ :=
  if_pos rfl

theorem shaken_other (a b : Nat) {address : SockaddrIn} (h : address ≠ j.address) :
    shaken nodes x y j a b address = (nodes address).map fun node => { node with
      next := if address = x.address then some j else node.next
      prev := if 2 ≤ a ∧ address = y.address then some j else node.prev } :=
  if_neg h

/-- The message of the first chain that is in flight. -/
def introduction : Nat → List (Datagram SockaddrIn IntlMsg)
  | 0 => [⟨x.address, j.address, ⟨.notify, y⟩⟩]
  | 1 => [⟨j.address, y.address, ⟨.stabilize, j⟩⟩]
  | 2 => [⟨y.address, j.address, ⟨.notify, j⟩⟩]
  | _ => []

/-- The message of the second chain that is in flight. -/
def greeting : Nat → List (Datagram SockaddrIn IntlMsg)
  | 0 => [⟨x.address, j.address, ⟨.stabilize, x⟩⟩]
  | 1 => [⟨j.address, x.address, ⟨.notify, x⟩⟩]
  | _ => []

/-- The network when the chains have come to the given points. -/
structure Shaken (a b : Nat) (chord : Chord) : Prop where
  parties : chord.parties = shaken nodes x y j a b
  inFlight : chord.inFlight.Perm (introduction x y j a ++ greeting x j b)

end Handshake

section Steps

variable {nodes : SockaddrIn → Option DhtNode} {M : Finset ServerInfo} {x y j : ServerInfo}

theorem Gap.ne_address (h : Gap nodes M x y j) {srv : ServerInfo} (hsrv : srv ∈ M) :
    srv.address ≠ j.address := by
  obtain ⟨node, hnode, -⟩ := h.members.node_of_mem srv hsrv
  exact ne_of_fresh h.fresh hnode

/-- The next message of the first chain is handled as the chain says. -/
theorem Gap.introduction_step (h : Gap nodes M x y j) {a : Nat} (b : Nat) (ha : a < 3) :
    ∃ d node, introduction x y j a = [d] ∧ shaken nodes x y j a b d.dst = some node ∧
      (respond node d.payload).2 = introduction x y j (a + 1) ∧
      Function.update (shaken nodes x y j a b) d.dst (some (respond node d.payload).1) =
        shaken nodes x y j (a + 1) b := by
  match a, ha with
  | 0, _ =>
      refine ⟨_, _, rfl, shaken_joined nodes x y j 0 b, rfl, Function.update_eq_iff.mpr ⟨?_, fun z hz => ?_⟩⟩
      · rw [shaken_joined]
        rfl
      · rw [shaken_other nodes x y j 0 b hz, shaken_other nodes x y j (0 + 1) b hz]
        simp
  | 1, _ =>
      obtain ⟨node, hnode, hself⟩ := h.members.node_of_mem y h.memY
      have hne := h.ne_address h.memY
      have hy := shaken_other nodes x y j 1 b hne
      rw [hnode, Option.map_some] at hy
      have hrespond : respond { node with
          next := if y.address = x.address then some j else node.next
          prev := if 2 ≤ 1 ∧ y.address = y.address then some j else node.prev } ⟨.stabilize, j⟩ = _ :=
        respond_stabilize_accept (by simpa [hself] using h.prevY node hnode)
      refine ⟨_, _, rfl, hy, ?_, Function.update_eq_iff.mpr ⟨?_, fun z hz => ?_⟩⟩
      · rw [hrespond]
        simp [introduction, DhtNode.tell, hself]
      · rw [hrespond, shaken_other nodes x y j _ b hne, hnode]
        simp
      · by_cases hzj : z = j.address
        · rw [hzj, shaken_joined, shaken_joined]
          rfl
        · rw [shaken_other nodes x y j 1 b hzj, shaken_other nodes x y j (1 + 1) b hzj]
          simp [hz]
  | 2, _ =>
      have hrespond : respond ⟨j, if 1 ≤ b then some x else none, some y⟩ ⟨.notify, j⟩ = _ :=
        respond_notify_ignore rfl (.inl rfl)
      refine ⟨_, _, rfl, shaken_joined nodes x y j 2 b, ?_, Function.update_eq_iff.mpr ⟨?_, fun z hz => ?_⟩⟩
      · exact congrArg Prod.snd hrespond
      · rw [shaken_joined]
        exact congrArg (some ∘ Prod.fst) hrespond
      · rw [shaken_other nodes x y j 2 b hz, shaken_other nodes x y j (2 + 1) b hz]
        simp

/-- The next message of the second chain is handled as the chain says. -/
theorem Gap.greeting_step (h : Gap nodes M x y j) (a : Nat) {b : Nat} (hb : b < 2) :
    ∃ d node, greeting x j b = [d] ∧ shaken nodes x y j a b d.dst = some node ∧
      (respond node d.payload).2 = greeting x j (b + 1) ∧
      Function.update (shaken nodes x y j a b) d.dst (some (respond node d.payload).1) =
        shaken nodes x y j a (b + 1) := by
  match b, hb with
  | 0, _ =>
      refine ⟨_, _, rfl, shaken_joined nodes x y j a 0, rfl, Function.update_eq_iff.mpr ⟨?_, fun z hz => ?_⟩⟩
      · rw [shaken_joined]
        rfl
      · rw [shaken_other nodes x y j a 0 hz, shaken_other nodes x y j a (0 + 1) hz]
  | 1, _ =>
      obtain ⟨node, hnode, hself⟩ := h.members.node_of_mem x h.memX
      have hne := h.ne_address h.memX
      have hx := shaken_other nodes x y j a 1 hne
      rw [hnode, Option.map_some, if_pos rfl] at hx
      have hrespond : respond { node with
          next := some j
          prev := if 2 ≤ a ∧ x.address = y.address then some j else node.prev } ⟨.notify, x⟩ = _ :=
        respond_notify_ignore rfl (.inl (by rw [hself]))
      refine ⟨_, _, rfl, hx, ?_, Function.update_eq_iff.mpr ⟨?_, fun z hz => ?_⟩⟩
      · exact congrArg Prod.snd hrespond
      · rw [hrespond, shaken_other nodes x y j a _ hne, hnode]
        simp
      · by_cases hzj : z = j.address
        · rw [hzj, shaken_joined, shaken_joined]
          rfl
        · rw [shaken_other nodes x y j a 1 hzj, shaken_other nodes x y j a (1 + 1) hzj]

/-- A delivery brings one of the chains on. -/
theorem Gap.shaken_step (h : Gap nodes M x y j) {a b : Nat} {chord next : Chord}
    (hshaken : Shaken nodes x y j a b chord) {e : Unit × Datagram SockaddrIn IntlMsg}
    (hstep : ChordStep chord e next) :
    (a < 3 ∧ Shaken nodes x y j (a + 1) b next) ∨ (b < 2 ∧ Shaken nodes x y j a (b + 1) next) := by
  obtain ⟨⟨⟩, d⟩ := e
  obtain ⟨rest, p, hperm, hp, rfl⟩ := hstep.elim
  have hflight := hperm.symm.trans hshaken.inFlight
  rcases List.mem_append.mp (hflight.subset List.mem_cons_self) with hd | hd
  · have ha : a < 3 := by
      by_contra hge
      rw [introduction.eq_4 _ _ _ _ (by omega) (by omega) (by omega)] at hd
      cases hd
    obtain ⟨d', node, hintro, hnode, hsends, hupdate⟩ := h.introduction_step b ha
    rw [hintro, List.mem_singleton] at hd
    subst hd
    rw [hshaken.parties, hnode] at hp
    cases hp
    rw [hintro] at hflight
    refine .inl ⟨ha, ?_, ?_⟩
    · change Function.update chord.parties d.dst _ = _
      rw [hshaken.parties]
      exact hupdate
    · change (rest ++ (respond p d.payload).2).Perm _
      rw [hsends]
      exact ((List.perm_cons d).mp hflight).append_right _ |>.trans List.perm_append_comm
  · have hb : b < 2 := by
      by_contra hge
      rw [greeting.eq_3 _ _ _ (by omega) (by omega)] at hd
      cases hd
    obtain ⟨d', node, hgreet, hnode, hsends, hupdate⟩ := h.greeting_step a hb
    rw [hgreet, List.mem_singleton] at hd
    subst hd
    rw [hshaken.parties, hnode] at hp
    cases hp
    rw [hgreet] at hflight
    refine .inr ⟨hb, ?_, ?_⟩
    · change Function.update chord.parties d.dst _ = _
      rw [hshaken.parties]
      exact hupdate
    · change (rest ++ (respond p d.payload).2).Perm _
      rw [hsends]
      have hrest := hflight.trans List.perm_append_comm
      exact ((List.perm_cons d).mp hrest).append_right _

/-- Both chains come to their ends in every order of the deliveries. -/
theorem Gap.shaken_inevitable (h : Gap nodes M x y j) {a b : Nat} {chord : Chord}
    (hshaken : Shaken nodes x y j a b chord) (ha : a ≤ 3) (hb : b ≤ 2) :
    Inevitably ChordStep (Shaken nodes x y j 3 2) chord := by
  induction hm : (3 - a) + (2 - b) generalizing a b chord with
  | zero =>
      obtain rfl : a = 3 := by omega
      obtain rfl : b = 2 := by omega
      exact .here hshaken
  | succ m ih =>
      refine .next ?_ fun e next hstep => ?_
      · have hsome : ∃ d node, d ∈ chord.inFlight ∧ chord.parties d.dst = some node := by
          rw [hshaken.parties]
          by_cases ha' : a < 3
          · obtain ⟨d, node, hintro, hnode, -⟩ := h.introduction_step b ha'
            exact ⟨d, node, hshaken.inFlight.symm.subset (by simp [hintro]), hnode⟩
          · obtain ⟨d, node, hgreet, hnode, -⟩ := h.greeting_step a (b := b) (by omega)
            exact ⟨d, node, hshaken.inFlight.symm.subset (by simp [hgreet]), hnode⟩
        obtain ⟨d, node, hd, hnode⟩ := hsome
        obtain ⟨next, hstep⟩ := Deliver.of_mem reactNode () hd hnode
        exact ⟨_, next, hstep⟩
      · rcases h.shaken_step hshaken hstep with ⟨ha', hnext⟩ | ⟨hb', hnext⟩
        · exact ih hnext (by omega) hb (by omega)
        · exact ih hnext ha (by omega) (by omega)

/-! ### The place of the new server -/

/-- A server alone takes the new one as its next. -/
theorem gap_of_alone (hid : x.position ≠ j.position) (haddress : j.address ≠ x.address) :
    Gap (Function.update (fun _ => none) x.address (some ⟨x, none, none⟩)) {x} x x j where
  members := {
    distinct := by simp
    node_of_mem := fun srv hsrv => by
      rw [Finset.mem_singleton] at hsrv
      subst hsrv
      exact ⟨_, Function.update_self _ _ _, rfl⟩
    mem_of_node := fun address node hnode => by
      by_cases h : address = x.address
      · rw [h, Function.update_self] at hnode
        cases hnode
        exact ⟨Finset.mem_singleton_self x, h.symm⟩
      · rw [Function.update_of_ne h] at hnode
        cases hnode }
  fresh := Function.update_of_ne haddress _ _
  distinct := fun srv hsrv => by rwa [Finset.mem_singleton.mp hsrv]
  memX := Finset.mem_singleton_self x
  memY := Finset.mem_singleton_self x
  accepts := fun node hnode => by
    rw [Function.update_self] at hnode
    cases hnode
    rfl
  prevY := fun node hnode prev hprev => by
    rw [Function.update_self] at hnode
    cases hnode
    cases hprev
  left := (isNext_insert_singleton fun heq => hid (congrArg _ heq.symm)).1
  right := (isNext_insert_singleton fun heq => hid (congrArg _ heq.symm)).2
  other := fun address node hnode hne => by
    rw [Function.update_of_ne hne] at hnode
    cases hnode

/-- A server of a ring takes the new one as its next if its id lies in its arc. -/
theorem gap_of_linked (h : Linked nodes M) (hinverse : Inverse nodes) (hfresh : nodes j.address = none)
    (hdistinct : ∀ srv ∈ M, srv.position ≠ j.position) (hx : x ∈ M) {node : DhtNode}
    (hnode : nodes x.address = some node) (hnext : node.next = some y)
    (hrange : isInRange x y j = true) : Gap nodes M x y j := by
  have hself := h.node_eq hx hnode
  obtain ⟨y', hnext', hy⟩ := h.next _ node hnode
  rw [hnext] at hnext'
  cases hnext'
  rw [hself] at hy
  obtain ⟨ynode, hynode, hprev⟩ := hinverse _ node y hnode hnext
  rw [hself] at hprev
  have hj : j ∉ M := fun hmem => hdistinct j hmem rfl
  have harc := (isInRange_iff x y j).mp hrange
  constructor
  case members => exact h.toMembers
  case fresh => exact hfresh
  case distinct => exact hdistinct
  case memX => exact hx
  case memY => exact hy.mem
  case accepts =>
    intro node' hnode'
    rw [hnode] at hnode'
    cases hnode'
    exact respond_join_accept hnext (by rwa [hself])
  case prevY =>
    intro ynode' hynode' prev hprev'
    rw [hynode] at hynode'
    cases hynode'
    rw [hprev] at hprev'
    cases hprev'
    exact hrange
  case left => exact hy.insert_left hj hx harc
  case right => exact hy.insert_right hj (hdistinct x hx) harc
  case other =>
    intro address other hother hne
    obtain ⟨hmem, haddress⟩ := h.mem_of_node address other hother
    have hxne : other.self ≠ x := by
      rintro rfl
      exact hne haddress.symm
    obtain ⟨z, hz, hisNext⟩ := h.next address other hother
    obtain ⟨znode, hznode, hzprev⟩ := hinverse address other z hother hz
    refine ⟨z, hz, hy.insert_other hx harc hmem hxne hisNext, ?_, znode, hznode, hzprev⟩
    rintro rfl
    rw [hynode] at hznode
    cases hznode
    rw [hprev] at hzprev
    cases hzprev
    exact hxne rfl

/-- The servers other than the new one when both chains have come to their ends. -/
theorem shaken_eq_some_iff {address : SockaddrIn} (haddress : address ≠ j.address) {node : DhtNode} :
    shaken nodes x y j 3 2 address = some node ↔ ∃ old, nodes address = some old ∧ node = { old with
      next := if address = x.address then some j else old.next
      prev := if address = y.address then some j else old.prev } := by
  rw [shaken_other nodes x y j 3 2 haddress, Option.map_eq_some_iff]
  simp [eq_comm]

theorem Gap.members_shaken (h : Gap nodes M x y j) :
    Members (shaken nodes x y j 3 2) (insert j M) where
  distinct := by
    rw [Finset.coe_insert, Set.injOn_insert (by simpa using fun hmem => h.distinct j hmem rfl)]
    refine ⟨h.members.distinct, ?_⟩
    rintro ⟨srv, hsrv, heq⟩
    exact h.distinct srv hsrv heq
  node_of_mem := by
    intro srv hsrv
    rcases Finset.mem_insert.mp hsrv with rfl | hsrv
    · exact ⟨_, shaken_joined nodes x y srv 3 2, rfl⟩
    · obtain ⟨node, hnode, hself⟩ := h.members.node_of_mem srv hsrv
      exact ⟨_, (shaken_eq_some_iff (h.ne_address hsrv)).mpr ⟨node, hnode, rfl⟩, hself⟩
  mem_of_node := by
    intro address node hnode
    by_cases haddress : address = j.address
    · rw [haddress, shaken_joined] at hnode
      cases hnode
      exact ⟨Finset.mem_insert_self j M, haddress.symm⟩
    · obtain ⟨old, hold, rfl⟩ := (shaken_eq_some_iff haddress).mp hnode
      obtain ⟨hmem, heq⟩ := h.members.mem_of_node address old hold
      exact ⟨Finset.mem_insert_of_mem hmem, heq⟩

/-- The ring when both chains have come to their ends. -/
theorem Gap.linked_shaken (h : Gap nodes M x y j) : Linked (shaken nodes x y j 3 2) (insert j M) := by
  refine ⟨h.members_shaken, fun address node hnode => ?_⟩
  by_cases haddress : address = j.address
  · rw [haddress, shaken_joined] at hnode
    cases hnode
    exact ⟨y, rfl, h.right⟩
  · obtain ⟨old, hold, rfl⟩ := (shaken_eq_some_iff haddress).mp hnode
    by_cases hx : address = x.address
    · have hself := h.members.node_eq h.memX (hx ▸ hold)
      refine ⟨j, if_pos hx, ?_⟩
      change IsNext _ _ old.self j
      rw [hself]
      exact h.left
    · obtain ⟨z, hz, hisNext, -⟩ := h.other address old hold hx
      exact ⟨z, by simp [hx, hz], hisNext⟩

theorem Gap.inverse_shaken (h : Gap nodes M x y j) : Inverse (shaken nodes x y j 3 2) := by
  intro address node z hnode hz
  by_cases haddress : address = j.address
  · rw [haddress, shaken_joined] at hnode
    cases hnode
    cases hz
    obtain ⟨ynode, hynode, -⟩ := h.members.node_of_mem y h.memY
    exact ⟨_, (shaken_eq_some_iff (h.ne_address h.memY)).mpr ⟨ynode, hynode, rfl⟩, by simp⟩
  · obtain ⟨old, hold, rfl⟩ := (shaken_eq_some_iff haddress).mp hnode
    by_cases hx : address = x.address
    · have hself := h.members.node_eq h.memX (hx ▸ hold)
      simp only [hx, if_true, Option.some.injEq] at hz
      subst hz
      exact ⟨_, shaken_joined nodes x y j 3 2, by simp [hself]⟩
    · -- the next server of any other one is not `y`, so its prev pointer is as before
      obtain ⟨z', hz', hisNext, hzy, znode, hznode, hzprev⟩ := h.other address old hold hx
      simp only [hx, if_false, hz', Option.some.injEq] at hz
      subst hz
      have hzj : z'.address ≠ j.address := ne_of_fresh h.fresh hznode
      have hzmem : z' ∈ M := (Finset.mem_insert.mp hisNext.mem).resolve_left fun heq =>
        hzj (congrArg _ heq)
      have hya : z'.address ≠ y.address := fun heq =>
        hzy ((h.members.node_eq hzmem hznode).symm.trans
          (h.members.node_eq h.memY (heq ▸ hznode)))
      exact ⟨_, (shaken_eq_some_iff hzj).mpr ⟨znode, hznode, rfl⟩, by simp [hya, hzprev]⟩

/-! ### The way of the JOIN message -/

/-- The new server waits, and its JOIN message is on the way to the given address. -/
structure Waiting (nodes : SockaddrIn → Option DhtNode) (j : ServerInfo) (dst : SockaddrIn)
    (chord : Chord) : Prop where
  parties : chord.parties = Function.update nodes j.address (some ⟨j, none, none⟩)
  inFlight : ∃ src, chord.inFlight = [⟨src, dst, ⟨.join, j⟩⟩]

/-- The only step is the delivery of the JOIN message. -/
theorem Waiting.next (hdst : x.address ≠ j.address) {node : DhtNode}
    (hnode : nodes x.address = some node) {chord : Chord} (h : Waiting nodes j x.address chord)
    {goal : Chord → Prop} (hgoal : ∀ next : Chord, next.parties = Function.update
        (Function.update nodes j.address (some ⟨j, none, none⟩)) x.address
        (some (respond node ⟨.join, j⟩).1) →
      next.inFlight = (respond node ⟨.join, j⟩).2 → Inevitably ChordStep goal next) :
    Inevitably ChordStep goal chord := by
  obtain ⟨src, hflight⟩ := h.inFlight
  have hp : chord.parties x.address = some node := by
    rw [h.parties, Function.update_of_ne hdst, hnode]
  refine inevitably_of_single hflight hp fun _ => hgoal _ ?_ rfl
  change Function.update chord.parties x.address _ = _
  rw [h.parties]

/-- The server at the gap takes the new one as its next. -/
theorem Gap.accept (h : Gap nodes M x y j) {chord : Chord} (hwaiting : Waiting nodes j x.address chord) :
    Inevitably ChordStep (Shaken nodes x y j 3 2) chord := by
  obtain ⟨node, hnode, hself⟩ := h.members.node_of_mem x h.memX
  have hne := h.ne_address h.memX
  refine hwaiting.next hne hnode fun next hparties hflight => ?_
  have haccepts := h.accepts node hnode
  refine h.shaken_inevitable (a := 0) (b := 0) ⟨?_, ?_⟩ (by omega) (by omega)
  · rw [hparties, haccepts]
    refine Function.update_eq_iff.mpr ⟨?_, fun z hz => ?_⟩
    · rw [shaken_other nodes x y j 0 0 hne, hnode]
      simp [DhtNode.link]
    · by_cases hzj : z = j.address
      · rw [hzj, Function.update_self, shaken_joined]
        rfl
      · rw [Function.update_of_ne hzj, shaken_other nodes x y j 0 0 hzj]
        simp [hz]
  · rw [hflight, haccepts]
    simp [DhtNode.welcome, DhtNode.tell, introduction, greeting, hself]

/-- The JOIN message finds the gap and the new server is inserted there. -/
theorem join_linked (h : Linked nodes M) (hinverse : Inverse nodes) (hfresh : nodes j.address = none)
    (hdistinct : ∀ srv ∈ M, srv.position ≠ j.position) (hx : x ∈ M) {chord : Chord}
    (hwaiting : Waiting nodes j x.address chord) :
    Inevitably ChordStep (fun c => ∃ x y, Gap nodes M x y j ∧ Shaken nodes x y j 3 2 c) chord := by
  induction hm : (closer ServerInfo.position M x j.position).card using Nat.strongRecOn
    generalizing x chord with
  | ind m ih =>
      obtain ⟨node, hnode, hself⟩ := h.node_of_mem x hx
      obtain ⟨y, hnext, hy⟩ := h.next _ node hnode
      rw [hself] at hy
      cases hrange : isInRange x y j with
      | true =>
          have hgap := gap_of_linked h hinverse hfresh hdistinct hx hnode hnext hrange
          exact (hgap.accept hwaiting).mono fun c hc => ⟨x, y, hgap, hc⟩
      | false =>
          have hne : x.address ≠ j.address := ne_of_fresh hfresh hnode
          have hid : y.id ≠ node.self.id := by
            rw [hself]
            exact fun heq => hy.pos_ne h.distinct hx (congrArg UInt16.toFin heq.symm)
          have hforward : respond node ⟨.join, j⟩ = _ :=
            respond_join_forward hnext (by rwa [hself]) hid
          have hout : ¬offset x.position j.position < offset x.position y.position := by
            rw [← isInRange_iff, hrange]
            exact Bool.false_ne_true
          refine hwaiting.next hne hnode fun next hparties hflight => ?_
          rw [hforward] at hparties hflight
          refine ih _ (hm ▸ hy.card_closer_lt h.distinct hx hout) hy.mem ⟨?_, _, hflight⟩ rfl
          rw [hparties]
          apply Function.update_eq_self_iff.mpr
          rw [Function.update_of_ne hne, hnode]

end Steps

/-! ### Systems -/

/-- No datagram is in flight and no server waits for an answer. -/
structure Quiet (sys : System) : Prop where
  inFlight : sys.inFlight = []
  pending : ∀ address server, sys.parties address = some server → server.pending = none

/-- The tables of a system; a server that is started later begins with an empty one. -/
def tables (sys : System) (address : SockaddrIn) : HashTable :=
  ((sys.parties address).map (·.ht)).getD htCreate

theorem nodes_toSystem (tbls : SockaddrIn → HashTable) (chord : Chord) :
    nodes (chord.toSystem tbls) = chord.parties := by
  funext address
  simp [nodes, Chord.toSystem, Network.map, Function.comp_def]

/-- A quiet system after the start of a further server, as a network of nodes. -/
theorem Quiet.join_eq {sys : System} (h : Quiet sys) {j : ServerInfo}
    (hfresh : nodes sys j.address = none) (registration : SockaddrIn) :
    join sys j registration = Chord.toSystem (tables sys)
      ⟨Function.update (nodes sys) j.address (some ⟨j, none, none⟩),
        [⟨j.address, registration, ⟨.join, j⟩⟩]⟩ := by
  rw [join, h.inFlight]
  simp only [Chord.toSystem, Network.map]
  congr 1
  funext address
  by_cases haddress : address = j.address
  · subst haddress
    have hnone : sys.parties j.address = none := by simpa [nodes] using hfresh
    simp [startedServer, tables, hnone]
  · rw [Function.update_of_ne haddress, Function.update_of_ne haddress, nodes, tables]
    cases hserver : sys.parties address with
    | none => rfl
    | some server =>
        have hpending := h.pending address server hserver
        obtain ⟨node, ht, pending⟩ := server
        cases hpending
        rfl

theorem nodes_createChord (self : ServerInfo) : nodes (createChord self) =
    Function.update (fun _ => none) self.address (some ⟨self, none, none⟩) := by
  funext address
  by_cases h : address = self.address
  · subst h
    simp [nodes, createChord, startedServer]
  · simp [nodes, createChord, h]

theorem quiet_createChord (self : ServerInfo) : Quiet (createChord self) where
  inFlight := rfl
  pending := fun address server hserver => by
    change Function.update (fun _ => none) self.address (some (startedServer self)) address = _ at hserver
    rw [Function.update_apply] at hserver
    split at hserver
    · cases hserver
      rfl
    · cases hserver

theorem wellFormedRing_createChord (self : ServerInfo) :
    WellFormedRing (nodes (createChord self)) [self] :=
  .alone self rfl (nodes_createChord self)

/-- A server joins a ring, on the level of nodes. -/
theorem join_wellFormed {nodes : SockaddrIn → Option DhtNode} {ring : List ServerInfo}
    (h : WellFormedRing nodes ring) {j x : ServerInfo} (hid : ∀ srv ∈ ring, srv.id ≠ j.id)
    (hfresh : nodes j.address = none) (hx : x ∈ ring) {chord : Chord}
    (hwaiting : Waiting nodes j x.address chord) :
    Inevitably ChordStep (fun c => c.inFlight = [] ∧ ∃ ring', WellFormedRing c.parties ring' ∧
      ∀ srv, srv ∈ ring' ↔ srv = j ∨ srv ∈ ring) chord := by
  have hdistinct : ∀ srv ∈ ring, srv.position ≠ j.position := fun srv hsrv heq =>
    hid srv hsrv (UInt16.toFin_inj.mp heq)
  have hfound : ∃ M : Finset ServerInfo, ring.toFinset = M ∧ Inevitably ChordStep
      (fun c => ∃ x y, Gap nodes M x y j ∧ Shaken nodes x y j 3 2 c) chord := by
    cases h with
    | alone srv hring hnodes =>
        subst hring
        rw [List.mem_singleton] at hx
        subst hx
        have hne : j.address ≠ x.address := by
          intro heq
          rw [hnodes, heq, Function.update_self] at hfresh
          cases hfresh
        have hgap : Gap nodes {x} x x j := hnodes ▸ gap_of_alone (hdistinct x (by simp)) hne
        exact ⟨{x}, rfl, (hgap.accept hwaiting).mono fun c hc => ⟨x, x, hgap, hc⟩⟩
    | ring hlen hring hprev =>
        exact ⟨ring.toFinset, rfl, join_linked (hring.linked hlen) hprev hfresh
          (fun srv hsrv => hdistinct srv (List.mem_toFinset.mp hsrv)) (List.mem_toFinset.mpr hx)
          hwaiting⟩
  obtain ⟨M, hM, hinevitable⟩ := hfound
  apply hinevitable.mono
  rintro c ⟨x, y, hgap, hshaken⟩
  have hjM : j ∉ M := fun hmem => hgap.distinct j hmem rfl
  have hcard : 2 ≤ (insert j M).card := by
    rw [Finset.card_insert_of_notMem hjM]
    have := Finset.card_pos.mpr ⟨x, hgap.memX⟩
    omega
  obtain ⟨ring', hring', hlen, hclockwise⟩ := hgap.linked_shaken.clockwiseRing hcard
  refine ⟨List.perm_nil.mp hshaken.inFlight, ring', ?_, fun srv => ?_⟩
  · rw [hshaken.parties]
    exact .ring (hlen ▸ hcard) hclockwise hgap.inverse_shaken
  · rw [← List.mem_toFinset, hring', Finset.mem_insert, ← hM, List.mem_toFinset]

/-- **A server joins a ring.** When a server whose id is new registers with a member of a well-formed
ring, every order of the deliveries leads to a state without datagrams in flight in which the old
servers and the new one form a well-formed ring. -/
theorem join_inserts (sys : System) (ring : List ServerInfo) (h : WellFormedRing (nodes sys) ring)
    (hquiet : Quiet sys) (self : ServerInfo) (hid : ∀ srv ∈ ring, srv.id ≠ self.id)
    (hfresh : nodes sys self.address = none) (registration : ServerInfo)
    (hregistration : registration ∈ ring) :
    Inevitably ServerStep (fun t => t.inFlight = [] ∧ ∃ ring', WellFormedRing (nodes t) ring' ∧
      ∀ srv, srv ∈ ring' ↔ srv = self ∨ srv ∈ ring) (join sys self registration.address) := by
  rw [hquiet.join_eq hfresh]
  refine (Chord.inevitably (tables sys) (join_wellFormed h hid hfresh hregistration ⟨rfl, _, rfl⟩)).mono ?_
  rintro - ⟨c, ⟨hflight, ring', hring', hmem⟩, rfl⟩
  refine ⟨?_, ring', ?_, hmem⟩
  · rw [Chord.toSystem, Network.map, hflight, List.map_nil]
  · rwa [nodes_toSystem]

/-- The ring of two servers with empty tables. -/
def twoServerSystem : System := Chord.toSystem (fun _ => htCreate) ⟨twoServers, []⟩

theorem twoServerSystem_parties {a : SockaddrIn} {server : Server}
    (h : twoServerSystem.parties a = some server) : server.pending = none ∧ server.ht = htCreate := by
  obtain ⟨node, -, rfl⟩ := Option.map_eq_some_iff.mp h
  exact ⟨rfl, rfl⟩

theorem twoServers_inverse : Inverse twoServers := by
  intro address node y hnode hnext
  unfold twoServers at hnode
  split at hnode
  · cases hnode
    cases hnext
    exact ⟨⟨testServer 1, some (testServer 0), some (testServer 0)⟩, by decide, rfl⟩
  · split at hnode
    · cases hnode
      cases hnext
      exact ⟨⟨testServer 0, some (testServer 1), some (testServer 1)⟩, by decide, rfl⟩
    · cases hnode

/-- The new server registers with the one that is not its place: server 0 forwards the JOIN to server 1. -/
theorem join_inserts_twoServers :
    Inevitably ServerStep (fun t => t.inFlight = [] ∧ ∃ ring', WellFormedRing (nodes t) ring' ∧
      ∀ srv, srv ∈ ring' ↔ srv = testServer 2 ∨ srv ∈ [testServer 0, testServer 1])
      (join twoServerSystem (testServer 2) (testServer 0).address) := by
  have hnodes : nodes twoServerSystem = twoServers := nodes_toSystem _ _
  have hring : WellFormedRing (nodes twoServerSystem) [testServer 0, testServer 1] := by
    rw [hnodes]
    exact .ring (by decide) twoServers_ring twoServers_inverse
  exact join_inserts twoServerSystem _ hring ⟨rfl, fun _ _ h => (twoServerSystem_parties h).1⟩ (testServer 2)
    (by decide) (by rw [hnodes]; decide) (testServer 0) (by simp)

end ComputerNetworking.Dht
