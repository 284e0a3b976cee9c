import ComputerNetworking.UnicastRouting

/-! Packets for all neighbours: how far they spread. -/

namespace ComputerNetworking.Routing.Network

open Transition WorkPool

variable {A R : Type}

section Broadcast

variable {net : Network R}

/-- A packet for all neighbours, or for all but the last hop, without alert. -/
structure Broadcast (a : Arrival A) : Prop where
  dest : a.packet.destNode = PS_DEST_BROADCAST_ALL ∨ a.packet.destNode = PS_DEST_BROADCAST_LIMIT
  kind : a.isLocal = false
  quiet : a.packet.alert = false

/-- The neighbours a node sends a broadcast to that it has from `last`. -/
def floodPeers (net : Network R) (all : Bool) (last u : NodeAddressT) : List NodeAddressT :=
  match net.stackAt u with
  | none => []
  | some st => (st.netOut.map OutLink.peer).filter fun peer => all ∨ peer ≠ last

/-- The number of walks of `k` links from `u` to `x`; unless `all`, none of them returns at once to the node
it has come from, which before `u` is `last`. -/
def walks (net : Network R) (all : Bool) : Nat → NodeAddressT → NodeAddressT → NodeAddressT → Nat
  | 0, _, u, x => if u = x then 1 else 0
  | k + 1, last, u, x => ((net.floodPeers all last u).map fun peer => walks net all k u peer x).sum

theorem stamp_lastNode (st : NetworkStack R) (fromAppl : Option ApplicationAddressT) (packet : NetworkPacket A) :
    (st.stamp fromAppl packet).lastNode = packet.lastNode := by
  cases fromAppl with
  | none => rfl
  | some appl =>
      simp only [NetworkStack.stamp, NetworkStack.originate]
      split <;> split <;> rfl

theorem map_filter_zipIdx {α β : Type} (p : α → Bool) (g : α → β) (l : List α) :
    (l.zipIdx.filter fun e => p e.1).map (fun e => g e.1) = (l.filter p).map g := by
  calc (l.zipIdx.filter (p ∘ Prod.fst)).map (g ∘ Prod.fst)
      = ((l.zipIdx.filter (p ∘ Prod.fst)).map Prod.fst).map g := List.map_map.symm
    _ = ((l.zipIdx.map Prod.fst).filter p).map g := by rw [List.filter_map]
    _ = (l.filter p).map g := by rw [List.zipIdx_map_fst]

/-- Copies of a packet sent through chosen gates arrive at the neighbours behind them. -/
theorem arrive_copies (st : NetworkStack R) (all : Prop) [Decidable all] (last : NodeAddressT)
    (copy : NetworkPacket A) :
    (st.netOut.zipIdx.filter fun link => all ∨ link.1.peer ≠ last).filterMap
        (arrive st ∘ fun link => .netOut link.2 copy) =
      ((st.netOut.map OutLink.peer).filter fun peer => decide all ∨ peer ≠ last).map fun peer =>
        ⟨peer, none, false, copy⟩ := by
  have hgate : ∀ link ∈ st.netOut.zipIdx.filter fun link => all ∨ link.1.peer ≠ last,
      (arrive st ∘ fun link => Output.netOut link.2 copy) link =
        some ((fun peer => ⟨peer, none, false, copy⟩) link.1.peer) := by
    intro link hlink
    have hget := List.mem_zipIdx_iff_getElem?.mp (List.mem_of_mem_filter hlink)
    simp [arrive, hget]
  rw [List.filterMap_congr hgate, List.filterMap_eq_map', List.filter_map, List.map_map]
  have hchoice : (fun peer => decide (decide all = true ∨ peer ≠ last)) ∘ OutLink.peer =
      fun link : OutLink R => decide (all ∨ link.peer ≠ last) := by
    funext link
    simp
  rw [hchoice]
  exact map_filter_zipIdx (fun link : OutLink R => decide (all ∨ link.peer ≠ last))
    (fun link => (⟨link.peer, none, false, copy⟩ : Arrival A)) st.netOut

/-- A broadcast goes to the chosen neighbours while hops are left, and to no application. -/
theorem next_broadcast {a : Arrival A} {st : NetworkStack R} (h : Broadcast a)
    (hst : net.stackAt a.node = some st) :
    net.next a =
        (if (st.stamp a.fromAppl a.packet).TTL < net.maxTTL then
          (net.floodPeers (a.packet.destNode = PS_DEST_BROADCAST_ALL) a.packet.lastNode a.node).map fun peer =>
            ⟨peer, none, false, forwarded a.node (st.stamp a.fromAppl a.packet)⟩
        else []) ∧
      net.delivered a = [] := by
  obtain ⟨hmem, haddr⟩ := mem_of_stackAt hst
  obtain ⟨hdest, -, hal, -, -⟩ := stamp_quiet st a.fromAppl h.quiet
  have hplain := net.plain st hmem
  simp only [List.mem_cons, List.not_mem_nil, or_false, not_or] at hplain
  have hne : a.packet.destNode ≠ st.nodeAddr := by
    rcases h.dest with heq | heq
    · exact fun hsame => hplain.2.1 (hsame.symm.trans heq)
    · exact fun hsame => hplain.2.2 (hsame.symm.trans heq)
  have hknown : a.packet.destNode ≠ PS_NODE_UNKNOWN := by
    rcases h.dest with heq | heq <;> rw [heq] <;> decide
  have hout : st.handleMessage a.fromAppl a.isLocal a.packet =
      st.sendOut (st.stamp a.fromAppl a.packet) := by
    unfold NetworkStack.handleMessage
    dsimp only
    rw [if_neg]
    simp [h.kind, hal, hdest, hne]
  by_cases hTTL : (st.stamp a.fromAppl a.packet).TTL < net.maxTTL
  · have hsend : st.sendOut (st.stamp a.fromAppl a.packet) =
        (st.netOut.zipIdx.filter fun link =>
          a.packet.destNode = PS_DEST_BROADCAST_ALL ∨ link.1.peer ≠ a.packet.lastNode).map
            fun link => .netOut link.2 (forwarded st.nodeAddr (st.stamp a.fromAppl a.packet)) := by
      unfold NetworkStack.sendOut
      rw [if_neg (by rw [net.ttl st hmem]; omega), if_neg (by rw [hdest]; exact hknown),
        if_pos (by rw [hdest]; exact h.dest)]
      simp only [forwarded, hdest, stamp_lastNode]
    constructor
    · rw [next, hst]
      dsimp only
      rw [hout, hsend, if_pos hTTL, List.filterMap_map, floodPeers, hst, haddr]
      exact arrive_copies st _ _ _
    · rw [delivered, hst]
      dsimp only
      rw [hout, hsend, List.filterMap_map]
      exact List.filterMap_eq_nil_iff.mpr fun _ _ => rfl
  · have hsend : st.sendOut (st.stamp a.fromAppl a.packet) = [] := by
      unfold NetworkStack.sendOut
      rw [if_pos (by rw [net.ttl st hmem]; omega)]
    constructor
    · simp [next, hst, hout, hsend, hTTL]
    · simp [delivered, hst, hout, hsend]

/-- The packet arrives at `x` from another node, with TTL `t`. -/
def ArrivesAt (x : NodeAddressT) (t : Int) (a : Arrival A) : Prop :=
  a.fromAppl = none ∧ a.node = x ∧ a.packet.TTL = t

instance (x : NodeAddressT) (t : Int) (a : Arrival A) : Decidable (ArrivesAt x t a) :=
  inferInstanceAs (Decidable (_ ∧ _ ∧ _))

theorem not_arrivesAt_self (x : NodeAddressT) (a : Arrival A) (k : Nat) :
    decide (ArrivesAt x (a.packet.TTL + (k + 1 : Nat)) a) = false := by
  apply decide_eq_false
  intro harr
  have heq := harr.2.2
  omega

/-- What comes of a packet in flight has a TTL no less. -/
theorem ttl_le_of_mem_family {a b : Arrival A} (hflight : a.fromAppl = none)
    (hb : b ∈ family net.next net.hopsLeft a) : a.packet.TTL ≤ b.packet.TTL := by
  induction hn : net.hopsLeft a using Nat.strongRecOn generalizing a with
  | ind n ih =>
      rw [family_eq net.hopsLeft_lt, List.mem_cons] at hb
      rcases hb with rfl | hb
      · exact le_rfl
      · obtain ⟨c, hc, hbc⟩ := List.mem_flatMap.mp hb
        have hlt := net.hopsLeft_lt a c hc
        obtain ⟨st, -, -, peer, rfl⟩ := next_cases hc
        have hle := ih _ (hn ▸ hlt) rfl hbc rfl
        rw [hflight] at hle
        simp only [forwarded, NetworkStack.stamp] at hle
        omega

/-- A copy of a broadcast at a neighbour. -/
def copyAt (a : Arrival A) (peer : NodeAddressT) : Arrival A :=
  ⟨peer, none, false, forwarded a.node a.packet⟩

theorem floodPeers_stack {all : Bool} {last u peer : NodeAddressT} (h : peer ∈ net.floodPeers all last u) :
    (net.stackAt peer).isSome := by
  unfold floodPeers at h
  split at h
  · simp at h
  · next st hst =>
      obtain ⟨link, hlink, rfl⟩ := List.mem_map.mp (List.mem_of_mem_filter h)
      obtain ⟨st', hst', haddr⟩ := List.mem_map.mp (net.peers st (mem_of_stackAt hst).1 link hlink)
      rw [← haddr, net.stackAt_of_mem hst']
      rfl

/-- What comes of a broadcast in flight: itself, and what comes of its copies. -/
theorem family_broadcast {a : Arrival A} (h : Broadcast a) (hflight : a.fromAppl = none)
    (hnode : (net.stackAt a.node).isSome) :
    family net.next net.hopsLeft a =
      a :: (if a.packet.TTL < net.maxTTL then
        (net.floodPeers (a.packet.destNode = PS_DEST_BROADCAST_ALL) a.packet.lastNode a.node).flatMap fun peer =>
          family net.next net.hopsLeft (copyAt a peer)
      else []) := by
  obtain ⟨st, hst⟩ := Option.isSome_iff_exists.mp hnode
  have hstamp : st.stamp a.fromAppl a.packet = a.packet := by rw [hflight]; rfl
  obtain ⟨hnext, -⟩ := next_broadcast h hst
  rw [hstamp] at hnext
  rw [family_eq net.hopsLeft_lt, hnext]
  split
  · rw [List.flatMap_map]
    rfl
  · rfl

/-- The copies of a broadcast in flight: one for each walk. -/
theorem countP_family {a : Arrival A} (h : Broadcast a) (hflight : a.fromAppl = none)
    (hnode : (net.stackAt a.node).isSome) (hTTL : a.packet.TTL ≤ net.maxTTL) (x : NodeAddressT) (k : Nat) :
    (family net.next net.hopsLeft a).countP (fun b => ArrivesAt x (a.packet.TTL + k) b) =
      if a.packet.TTL + k ≤ net.maxTTL then
        net.walks (a.packet.destNode = PS_DEST_BROADCAST_ALL) k a.packet.lastNode a.node x
      else 0 := by
  induction k generalizing a with
  | zero =>
      -- the copies have a higher TTL
      have hrest : ∀ peers : List NodeAddressT,
          (peers.flatMap fun peer => family net.next net.hopsLeft (copyAt a peer)).countP
            (fun b => ArrivesAt x (a.packet.TTL + (0 : Nat)) b) = 0 := by
        intro peers
        rw [List.countP_eq_zero]
        intro b hb harr
        obtain ⟨peer, -, hbc⟩ := List.mem_flatMap.mp hb
        have hle := ttl_le_of_mem_family rfl hbc
        have heq := (of_decide_eq_true harr).2.2
        simp only [copyAt, forwarded] at hle
        omega
      rw [family_broadcast h hflight hnode, List.countP_cons, walks]
      split
      · rw [hrest]
        simp [ArrivesAt, hflight, hTTL]
      · simp [ArrivesAt, hflight, hTTL]
  | succ k ih =>
      rw [family_broadcast h hflight hnode, List.countP_cons, not_arrivesAt_self, walks]
      simp only [Bool.false_eq_true, if_false, Nat.add_zero]
      by_cases hlt : a.packet.TTL < net.maxTTL
      · rw [if_pos hlt, List.countP_flatMap]
        have hcopy : ∀ peer ∈ net.floodPeers (a.packet.destNode = PS_DEST_BROADCAST_ALL) a.packet.lastNode a.node,
            (List.countP (fun b => ArrivesAt x (a.packet.TTL + (k + 1 : Nat)) b) ∘
              fun peer => family net.next net.hopsLeft (copyAt a peer)) peer =
              if a.packet.TTL + (k + 1 : Nat) ≤ net.maxTTL then
                net.walks (a.packet.destNode = PS_DEST_BROADCAST_ALL) k a.node peer x
              else 0 := by
          intro peer hpeer
          have hcast : a.packet.TTL + ((k + 1 : Nat) : Int) = (copyAt a peer).packet.TTL + k := by
            simp only [copyAt, forwarded]
            push_cast
            omega
          have hbroad : Broadcast (copyAt a peer) := ⟨h.dest, rfl, h.quiet⟩
          rw [Function.comp_apply, hcast]
          exact ih hbroad rfl (floodPeers_stack hpeer) (by simp only [copyAt, forwarded]; omega)
        rw [List.map_congr_left hcopy]
        split
        · rfl
        · simp
      · rw [if_neg hlt, if_neg (by omega)]
        rfl

theorem broadcast_of_mem_family {a b : Arrival A} (h : Broadcast a)
    (hb : b ∈ family net.next net.hopsLeft a) : Broadcast b := by
  induction hn : net.hopsLeft a using Nat.strongRecOn generalizing a with
  | ind n ih =>
      rw [family_eq net.hopsLeft_lt, List.mem_cons] at hb
      rcases hb with rfl | hb
      · exact h
      · obtain ⟨c, hc, hbc⟩ := List.mem_flatMap.mp hb
        have hlt := net.hopsLeft_lt a c hc
        obtain ⟨st, -, -, peer, rfl⟩ := next_cases hc
        obtain ⟨hdest, -, hal, -, -⟩ := stamp_quiet st a.fromAppl h.quiet
        exact ih _ (hn ▸ hlt) ⟨by simpa [forwarded, hdest] using h.dest, rfl, hal⟩ hbc rfl

/-- A broadcast of an application, or one in flight at a node, reaches no application, and each node gets as
many copies of it after `k` more links, at least one, as there are walks of that length, up to `maxTTL`. -/
theorem broadcast_copies {a : Arrival A} (h : Broadcast a) {st : NetworkStack R} (hst : net.stackAt a.node = some st)
    {done : List (Arrival A)} (hrun : Run (Step net.next) [a] done []) :
    done.flatMap net.delivered = [] ∧
      ∀ x k, done.countP (fun b => ArrivesAt x ((st.stamp a.fromAppl a.packet).TTL + (k + 1 : Nat)) b) =
        if (st.stamp a.fromAppl a.packet).TTL + (k + 1 : Nat) ≤ net.maxTTL then
          net.walks (a.packet.destNode = PS_DEST_BROADCAST_ALL) (k + 1) a.packet.lastNode a.node x
        else 0 := by
  have hperm := done_perm net.hopsLeft_lt hrun
  rw [List.flatMap_singleton] at hperm
  constructor
  · rw [List.flatMap_eq_nil_iff]
    intro b hb
    have hbroad := broadcast_of_mem_family h (hperm.mem_iff.mp hb)
    cases hstb : net.stackAt b.node with
    | none => simp [delivered, hstb]
    | some stb => exact (next_broadcast hbroad hstb).2
  · intro x k
    -- the packet as the stack goes on with it, as if it were in flight at the node
    obtain ⟨hdest, -, hal, -, -⟩ := stamp_quiet st a.fromAppl h.quiet
    let a' : Arrival A := ⟨a.node, none, false, st.stamp a.fromAppl a.packet⟩
    have hbroad : Broadcast a' := ⟨by simpa [a', hdest] using h.dest, rfl, hal⟩
    have hlast : a'.packet.lastNode = a.packet.lastNode := stamp_lastNode st a.fromAppl a.packet
    have hnext : net.next a = net.next a' := by
      have hstamp : st.stamp a'.fromAppl a'.packet = st.stamp a.fromAppl a.packet := rfl
      have hdest' : a'.packet.destNode = a.packet.destNode := hdest
      rw [(next_broadcast h hst).1, (next_broadcast hbroad (a := a') hst).1, hlast, hstamp, hdest']
    have hnot : decide (ArrivesAt x (a'.packet.TTL + (k + 1 : Nat)) a) = false := by
      cases happl : a.fromAppl with
      | none =>
          have hsame : a'.packet.TTL = a.packet.TTL := by simp [a', happl, NetworkStack.stamp]
          rw [hsame]
          exact not_arrivesAt_self x a k
      | some appl => simp [ArrivesAt, happl]
    have hcount : done.countP (fun b => ArrivesAt x (a'.packet.TTL + (k + 1 : Nat)) b) =
        (family net.next net.hopsLeft a').countP fun b => ArrivesAt x (a'.packet.TTL + (k + 1 : Nat)) b := by
      rw [hperm.countP_eq, family_eq net.hopsLeft_lt a, family_eq net.hopsLeft_lt a', List.countP_cons,
        List.countP_cons, hnot, not_arrivesAt_self, hnext]
    change done.countP (fun b => ArrivesAt x (a'.packet.TTL + (k + 1 : Nat)) b) = _
    by_cases hTTL : a'.packet.TTL ≤ net.maxTTL
    · rw [hcount, countP_family hbroad rfl (by simp [a', hst]) hTTL x (k + 1), hlast]
      simp only [a', hdest]
    · have hover : ¬a'.packet.TTL < net.maxTTL := fun hlt => hTTL hlt.le
      have hover' : ¬a'.packet.TTL + (k + 1 : Nat) ≤ net.maxTTL := by omega
      rw [hcount, family_broadcast hbroad rfl (by simp [a', hst]), if_neg hover, List.countP_singleton,
        not_arrivesAt_self, if_neg hover']
      rfl

theorem broadcast_copies_threeRouters :
    ∃ done, Run (Step threeRouters.next) [exampleSend PS_DEST_BROADCAST_ALL] done [] ∧
      done.flatMap threeRouters.delivered = [] ∧
      ∀ x k, done.countP (fun b => ArrivesAt x (0 + (k + 1 : Nat)) b) =
        if 0 + ((k + 1 : Nat) : Int) ≤ threeRouters.maxTTL then
          threeRouters.walks (PS_DEST_BROADCAST_ALL = PS_DEST_BROADCAST_ALL) (k + 1) PS_NODE_UNKNOWN 1 x
        else 0 := by
  obtain ⟨done, todo, hrun, rfl⟩ :=
    (inevitably_nil threeRouters.hopsLeft_lt [exampleSend PS_DEST_BROADCAST_ALL]).reaches
  exact ⟨done, hrun, broadcast_copies ⟨Or.inl rfl, rfl, rfl⟩ (by rfl) hrun⟩

end Broadcast

end ComputerNetworking.Routing.Network
