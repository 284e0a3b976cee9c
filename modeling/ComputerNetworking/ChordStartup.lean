import ComputerNetworking.ChordConcurrent

/-! Runs in which servers are started and join in any order. -/

namespace ComputerNetworking.Dht

open Datagrams Transition

inductive StartupAction where
  | start (self registration : ServerInfo)
  | deliver (heap : Nat → UInt8) (d : Datagram SockaddrIn Bytes)

/-- A server with a new address and a new id is started, or a datagram is delivered. -/
inductive StartupStep : System → StartupAction → System → Prop where
  | start {sys : System} {self registration : ServerInfo} (hfresh : nodes sys self.address = none)
      (hid : ∀ address node, nodes sys address = some node → node.self.id ≠ self.id)
      (hregistration : ∃ node, nodes sys registration.address = some node) :
      StartupStep sys (.start self registration) (join sys self registration.address)
  | deliver {sys next : System} {heap : Nat → UInt8} {d : Datagram SockaddrIn Bytes}
      (h : ServerStep sys (heap, d) next) : StartupStep sys (.deliver heap d) next

/-- The datagram is a JOIN message. -/
def IsJoin (payload : Bytes) : Prop :=
  internalMask &&& payload.getD 0 0 ≠ 0 ∧ joinMask &&& payload.getD 0 0 ≠ 0

/-- The step delivers no JOIN message to a server without a next one, other than the creator. -/
def NoEarlyJoin (creator : ServerInfo) (sys : System) : StartupAction → Prop
  | .start _ _ => True
  | .deliver _ d => IsJoin d.payload → ∀ node, nodes sys d.dst = some node → node.next = none →
      node.self = creator

/-! ### Systems of servers with empty tables -/

/-- The system of servers with empty tables whose nodes form the network. -/
abbrev Chord.startup (chord : Chord) : System := chord.toSystem fun _ => htCreate

theorem createChord_eq (creator : ServerInfo) : createChord creator = (Chord.create creator).startup := by
  rw [createChord, Chord.create, Chord.startup, Chord.toSystem, Network.map]
  congr 1
  funext address
  by_cases h : address = creator.address
  · subst h
    simp [startedServer]
  · simp [h]

theorem join_startup (chord : Chord) (self : ServerInfo) (registration : SockaddrIn) :
    join chord.startup self registration = (chord.start self registration).startup := by
  rw [join, Chord.startup, Chord.startup, Chord.toSystem, Chord.toSystem, Network.map, Network.map,
    Chord.start, List.map_append]
  congr 1
  funext address
  by_cases h : address = self.address
  · subst h
    simp [startedServer]
  · simp [h]

theorem isJoin_encode (m : IntlMsg) : IsJoin m.encode ↔ m.kind = .join := by
  change internalMask &&& (internalMask ||| m.kind.mask) ≠ 0 ∧
    joinMask &&& (internalMask ||| m.kind.mask) ≠ 0 ↔ _
  cases m.kind <;> decide

/-- A step without an early JOIN message keeps the invariant. -/
theorem StartupInv.step {creator : ServerInfo} (sys : System) (action : StartupAction) (next : System)
    (h : ∃ M chord, sys = Chord.startup chord ∧ StartupInv creator M chord)
    (hstep : Guarded (NoEarlyJoin creator) StartupStep sys action next) :
    ∃ M chord, next = Chord.startup chord ∧ StartupInv creator M chord := by
  obtain ⟨M, chord, rfl, h⟩ := h
  obtain ⟨hearly, hstep⟩ := hstep
  have hnodes : nodes chord.startup = chord.parties := nodes_toSystem _ chord
  cases hstep with
  | start hfresh hid _ =>
      rw [hnodes] at hfresh hid
      exact ⟨M, _, join_startup chord _ _, h.start hfresh hid _⟩
  | deliver hstep =>
      obtain ⟨m, next, hnext, rfl, rfl⟩ := Chord.step_of_serverStep _ hstep
      obtain ⟨M', h'⟩ := h.deliver hnext fun hkind node hnode => by
        rw [← hnodes] at hnode
        exact hearly ((isJoin_encode m.payload).mpr hkind) node hnode
      exact ⟨M', next, rfl, h'⟩

/-! ### Runs with given deliveries -/

/-- Delivers the datagram at a position of the list of those in flight, if the receiver may be given
the message. -/
def Chord.deliverAt (allowed : DhtNode → IntlMsg → Bool) (chord : Chord) (i : Nat) : Option Chord :=
  match chord.inFlight[i]? with
  | none => none
  | some d =>
      match chord.parties d.dst with
      | none => none
      | some p =>
          if allowed p d.payload then some (chord.after d (chord.inFlight.eraseIdx i) (reactNode () p d))
          else none

theorem Chord.deliverAt_step {allowed : DhtNode → IntlMsg → Bool} {chord next : Chord} {i : Nat}
    (h : chord.deliverAt allowed i = some next) :
    ∃ d p, chord.parties d.dst = some p ∧ allowed p d.payload = true ∧
      ChordStep chord ((), d) next := by
  unfold deliverAt at h
  cases hd : chord.inFlight[i]? with
  | none =>
      rw [hd] at h
      cases h
  | some d =>
      cases hp : chord.parties d.dst with
      | none => simp [hd, hp] at h
      | some p =>
          cases hallowed : allowed p d.payload with
          | false => simp [hd, hp, hallowed] at h
          | true =>
              obtain ⟨hi, rfl⟩ := List.getElem?_eq_some_iff.mp hd
              simp only [hd, hp, hallowed, if_true, Option.some.injEq] at h
              subst h
              refine ⟨_, p, hp, hallowed, ?_⟩
              rw [List.eraseIdx_eq_take_drop_succ]
              refine .mk () ?_ hp
              rw [List.cons_getElem_drop_succ, List.take_append_drop]

/-- Deliveries are a run, whatever a step is. -/
theorem Chord.run_of_deliverAt {Action : Type*} {step : System → Action → System → Prop}
    {allowed : DhtNode → IntlMsg → Bool}
    (hstep : ∀ (chord next : Chord) (m : Datagram SockaddrIn IntlMsg) node, chord.parties m.dst = some node →
      allowed node m.payload = true → ChordStep chord ((), m) next →
      ∃ action, step chord.startup action next.startup)
    {positions : List Nat} {chord next : Chord}
    (h : positions.foldlM (Chord.deliverAt allowed) chord = some next) :
    ∃ actions, Run step chord.startup actions next.startup := by
  induction positions generalizing chord with
  | nil =>
      cases h
      exact ⟨[], .nil _⟩
  | cons i positions ih =>
      rw [List.foldlM_cons, Option.bind_eq_bind, Option.bind_eq_some_iff] at h
      obtain ⟨mid, hmid, htail⟩ := h
      obtain ⟨d, p, hp, hp', hchord⟩ := Chord.deliverAt_step hmid
      obtain ⟨action, haction⟩ := hstep chord mid d p hp hp' hchord
      obtain ⟨actions, hrun⟩ := ih htail
      exact ⟨_, .cons haction hrun⟩

theorem Chord.run_deliverAt (cond : System → StartupAction → Prop) {allowed : DhtNode → IntlMsg → Bool}
    (hallowed : ∀ (chord : Chord) (m : Datagram SockaddrIn IntlMsg) node heap, chord.parties m.dst = some node →
      allowed node m.payload = true → cond chord.startup (.deliver heap (m.map IntlMsg.encode)))
    {positions : List Nat} {chord next : Chord}
    (h : positions.foldlM (Chord.deliverAt allowed) chord = some next) :
    ∃ actions, Run (Guarded cond StartupStep) chord.startup actions next.startup := by
  refine Chord.run_of_deliverAt (fun chord next m node hp hp' hstep => ?_) h
  obtain ⟨heap, hserver⟩ := Chord.serverStep_of_step (fun _ => htCreate) hstep
  exact ⟨_, hallowed chord m node heap hp hp', .deliver hserver⟩

/-- A server is started while others are. -/
theorem Chord.startupStep_start {chord : Chord} (self registration : ServerInfo)
    (hfresh : chord.parties self.address = none)
    (hid : ∀ address node, chord.parties address = some node → node.self.id ≠ self.id)
    (hregistration : ∃ node, chord.parties registration.address = some node) :
    StartupStep chord.startup (.start self registration)
      (chord.start self registration.address).startup := by
  have hnodes : nodes chord.startup = chord.parties := nodes_toSystem _ chord
  rw [← join_startup]
  refine .start ?_ ?_ ?_ <;> rw [hnodes]
  · exact hfresh
  · exact hid
  · exact hregistration

/-- The first three servers of the test script before any datagram is delivered. The second one
registers with the first one, and the third one with the given one. -/
def threeStarted (registration : ServerInfo) : Chord :=
  ((Chord.create (testServer 0)).start (testServer 1) (testServer 0).address).start (testServer 2)
    registration.address

theorem threeStarted_run (cond : System → StartupAction → Prop)
    (hcond : ∀ sys self registration, cond sys (.start self registration)) {registration : ServerInfo}
    (hregistration : registration = testServer 0 ∨ registration = testServer 1) :
    ∃ actions, Run (Guarded cond StartupStep) (createChord (testServer 0)) actions
      (threeStarted registration).startup := by
  rw [createChord_eq]
  refine ⟨_, .cons ⟨hcond _ _ _, Chord.startupStep_start (testServer 1) (testServer 0)
      (by decide) ?_ ⟨⟨testServer 0, none, none⟩, by decide⟩⟩
    (.single ⟨hcond _ _ _, Chord.startupStep_start (testServer 2) registration
      (by decide) ?_ ⟨⟨registration, none, none⟩, ?_⟩⟩)⟩
  · intro address node hnode
    obtain ⟨-, rfl⟩ := Chord.create_parties hnode
    decide
  · intro address node hnode
    rcases update_cases hnode with ⟨-, rfl⟩ | ⟨-, hnode⟩
    · decide
    · obtain ⟨-, rfl⟩ := Chord.create_parties hnode
      decide
  · rcases hregistration with rfl | rfl <;> decide

/-! ### The ring of all servers -/

/-- **Concurrent joins keep one ring.** In every run in which no JOIN message is delivered to a server
that has no next one, other than the first: whenever two or more servers have been started and no
datagram is in flight, the next pointers of all servers form one cycle in the order of their ids. -/
theorem concurrent_joins_ring (creator : ServerInfo) (actions : List StartupAction) (sys : System)
    (hrun : Run (Guarded (NoEarlyJoin creator) StartupStep) (createChord creator) actions sys)
    (hquiet : sys.inFlight = [])
    (hservers : ∃ a b node node', a ≠ b ∧ nodes sys a = some node ∧ nodes sys b = some node') :
    ∃ ring, 2 ≤ ring.length ∧ ClockwiseRing (nodes sys) ring := by
  obtain ⟨M, chord, rfl, h⟩ := hrun.invariant StartupInv.step
    ⟨_, _, createChord_eq creator, startupInv_create creator⟩
  rw [nodes_toSystem] at hservers ⊢
  have hflight : chord.inFlight = [] := List.map_eq_nil_iff.mp hquiet
  obtain ⟨hlinked, hcard⟩ := h.linked_of_quiet hflight hservers
  obtain ⟨ring, -, hlen, hring⟩ := hlinked.clockwiseRing hcard
  exact ⟨ring, hlen ▸ hcard, hring⟩

/-- Two servers that join the first one at the same time; the datagrams arrive as they were sent. -/
theorem concurrent_joins_ring_threeServers :
    ∃ actions sys, Run (Guarded (NoEarlyJoin (testServer 0)) StartupStep) (createChord (testServer 0))
        actions sys ∧ sys.inFlight = [] ∧
      ∃ ring, 2 ≤ ring.length ∧ ClockwiseRing (nodes sys) ring := by
  let allowed (node : DhtNode) (m : IntlMsg) : Bool :=
    m.kind != .join || node.next.isSome || node.self == testServer 0
  have hend : (((List.replicate 13 0).foldlM (Chord.deliverAt allowed) (threeStarted (testServer 0))).map
      fun c => (c.inFlight, (c.parties (testServer 0).address).map (·.self),
        (c.parties (testServer 1).address).map (·.self))) =
      some ([], some (testServer 0), some (testServer 1)) := by decide +kernel
  obtain ⟨chord, hchord, hfacts⟩ := Option.map_eq_some_iff.mp hend
  simp only [Prod.mk.injEq, Option.map_eq_some_iff] at hfacts
  obtain ⟨hflight, ⟨node, hnode, -⟩, node', hnode', -⟩ := hfacts
  obtain ⟨actions, hstart⟩ := threeStarted_run (NoEarlyJoin (testServer 0))
    (fun _ _ _ => trivial) (.inl rfl)
  obtain ⟨deliveries, hdeliver⟩ := Chord.run_deliverAt (NoEarlyJoin (testServer 0))
    (fun c m p _ hp hallowed hjoin q hq hnext => by
      rw [nodes_toSystem] at hq
      obtain rfl : p = q := Option.some.inj (hp.symm.trans hq)
      simpa [allowed, (isJoin_encode m.payload).mp hjoin, hnext] using hallowed) hchord
  have hquiet : chord.startup.inFlight = [] := List.map_eq_nil_iff.mpr hflight
  refine ⟨_, _, hstart.append hdeliver, hquiet, ?_⟩
  apply concurrent_joins_ring (testServer 0) _ _ (hstart.append hdeliver) hquiet
  rw [nodes_toSystem]
  exact ⟨_, _, node, node', by decide, hnode, hnode'⟩

/-- When the JOIN message of server 2 reaches server 1 before server 1 has a next server, the servers 0
and 2 can both end with server 1 as their next. -/
theorem early_join_splits_ring :
    ∃ actions sys, Run StartupStep (createChord (testServer 0)) actions sys ∧ sys.inFlight = [] ∧
      (∃ a b node node', a ≠ b ∧ nodes sys a = some node ∧ nodes sys b = some node') ∧
      ¬∃ ring, ClockwiseRing (nodes sys) ring := by
  have hend : ((([1, 1, 2, 2, 1, 1, 0, 0, 0, 0] : List Nat).foldlM (Chord.deliverAt fun _ _ => true)
      (threeStarted (testServer 1))).map fun c => (c.inFlight,
        (c.parties (testServer 0).address).map (·.next), (c.parties (testServer 2).address).map (·.next))) =
      some ([], some (some (testServer 1)), some (some (testServer 1))) := by decide +kernel
  obtain ⟨chord, hchord, hfacts⟩ := Option.map_eq_some_iff.mp hend
  simp only [Prod.mk.injEq, Option.map_eq_some_iff] at hfacts
  obtain ⟨hflight, ⟨node, hnode, hnext⟩, node', hnode', hnext'⟩ := hfacts
  obtain ⟨actions, hstart⟩ := threeStarted_run (fun _ _ => True) (fun _ _ _ => trivial)
    (.inr rfl)
  obtain ⟨deliveries, hdeliver⟩ := Chord.run_deliverAt (fun _ _ => True)
    (fun _ _ _ _ _ _ => trivial) hchord
  have hne : (testServer 0).address ≠ (testServer 2).address := by decide
  refine ⟨_, _, (hstart.append hdeliver).mono fun _ _ _ hstep => hstep.2,
    List.map_eq_nil_iff.mpr hflight, ?_, ?_⟩ <;> rw [nodes_toSystem]
  · exact ⟨_, _, node, node', hne, hnode, hnode'⟩
  · rintro ⟨ring, hring⟩
    exact hne (hring.next_injective hnode hnode' (hnext.trans hnext'.symm))

end ComputerNetworking.Dht
