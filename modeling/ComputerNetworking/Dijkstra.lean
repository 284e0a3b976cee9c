import ComputerNetworking.ShortestPath
import ComputerNetworking.Topology

/-! The shortest paths of the simulator: `routing/Dijkstra.cc` of ProtSim.

The weights are any costs, so that a `double` with its rounding is one; a weight is never a NaN. -/

namespace ComputerNetworking.Routing

open ShortestPath

variable {C : Type}

/-- The link on which the way to a destination begins. -/
abbrev PathMap (C : Type) := NodeAddressT → Option (TopologyLink C)

/-- The variables of `doDijkstra`. -/
structure DijkstraState (C : Type) where
  N : List NodeAddressT
  D : NodeAddressT → C
  P : PathMap C
  closestNode : NodeAddressT

section Search

variable [Costs C]

/-- One link of the current node. -/
def relaxLink (src current : NodeAddressT) (st : DijkstraState C) (link : TopologyLink C) :
    DijkstraState C :=
  if link.destNode ∈ st.N then
    if st.D current + link.weight < st.D link.destNode then
      { st with
        D := Function.update st.D link.destNode (st.D current + link.weight)
        P := Function.update st.P link.destNode (if current = src then some link else st.P current) }
    else st
  else st

/-- The node of least distance, the first of them in the order of the set; `node` if none is finite. -/
def findClosest (D : NodeAddressT → C) (N : List NodeAddressT) (node : NodeAddressT) : NodeAddressT :=
  (N.foldl (fun best i => if D i < best.1 then (D i, i) else best) ((⊤ : C), node)).2

/-- One round of the main loop; `none` is the failing assertion. -/
def dijkstraRound (topo : Topology C) (src : NodeAddressT) (st : DijkstraState C) :
    Option (DijkstraState C) :=
  if st.closestNode ∈ st.N then
    let st' := (topo.getLinks st.closestNode).foldl (relaxLink src st.closestNode)
      { st with N := st.N.erase st.closestNode }
    some { st' with closestNode := findClosest st'.D st'.N st.closestNode }
  else none

/-- `while (!N.empty())`, with fuel for one round for each node. -/
def dijkstraLoop (topo : Topology C) (src : NodeAddressT) :
    Nat → DijkstraState C → Option (PathMap C)
  | 0, st => if st.N = [] then some st.P else none
  | fuel + 1, st =>
      if st.N = [] then some st.P
      else (dijkstraRound topo src st).bind (dijkstraLoop topo src fuel)

def dijkstraStart (topo : Topology C) (src : NodeAddressT) : DijkstraState C where
  N := topo.getNodes
  D := Function.update (fun _ => ⊤) src 0
  P := fun _ => none
  closestNode := src

/-- Routes from `src`, or a failed assertion. -/
def doDijkstra (topo : Topology C) (src : NodeAddressT) : Option (PathMap C) :=
  dijkstraLoop topo src topo.getNodes.length (dijkstraStart topo src)

/-! ### One link -/

section Relax

variable {src current : NodeAddressT}

@[simp] theorem relaxLink_N (st : DijkstraState C) (link : TopologyLink C) :
    (relaxLink src current st link).N = st.N := by
  unfold relaxLink
  split
  · split <;> rfl
  · rfl

@[simp] theorem foldl_relaxLink_N (links : List (TopologyLink C)) (st : DijkstraState C) :
    (links.foldl (relaxLink src current) st).N = st.N := by
  induction links generalizing st with
  | nil => rfl
  | cons link links ih => rw [List.foldl_cons, ih, relaxLink_N]

/-- A node that is handled keeps its distance. -/
theorem relaxLink_D {st : DijkstraState C} (link : TopologyLink C) {v : NodeAddressT} (hv : v ∉ st.N) :
    (relaxLink src current st link).D v = st.D v := by
  unfold relaxLink
  split
  · next hmem =>
      split
      · exact Function.update_of_ne (fun heq : v = link.destNode => hv (heq ▸ hmem)) _ _
      · rfl
  · rfl

theorem foldl_relaxLink_D (links : List (TopologyLink C)) {st : DijkstraState C} {v : NodeAddressT}
    (hv : v ∉ st.N) : (links.foldl (relaxLink src current) st).D v = st.D v := by
  induction links generalizing st with
  | nil => rfl
  | cons link links ih =>
      rw [List.foldl_cons, ih (by simpa using hv), relaxLink_D link hv]

end Relax

/-! ### The labels of the search -/

/-- The nodes that have left `N`. -/
def handled (topo : Topology C) (N : List NodeAddressT) : Set NodeAddressT :=
  {v | v ∈ topo.nodes ∧ v ∉ N}

/-- What holds of the variables between two links, when the edges `looked` have been looked at. -/
structure Explored (topo : Topology C) (src : NodeAddressT)
    (looked : NodeAddressT → NodeAddressT → C → Prop) (st : DijkstraState C) : Prop where
  labels : Labels topo.Edge src (handled topo st.N) looked st.D
    (fun v => (st.P v).map TopologyLink.destNode)
  links : ∀ v link, st.P v = some link → link ∈ topo.getLinks src
  inside : ∀ v ∈ st.N, v ∈ topo.nodes
  outside : ∀ v, v ∉ topo.nodes → st.D v = ⊤

section Relax

variable {topo : Topology C} {src current : NodeAddressT} {looked : NodeAddressT → NodeAddressT → C → Prop}

theorem Explored.relaxLink {st : DijkstraState C} (h : Explored topo src looked st)
    (hc : current ∈ handled topo st.N) (hs : src ∈ handled topo st.N)
    (hmost : ∀ u ∈ handled topo st.N, st.D u ≤ st.D current)
    (hlooked : ∀ a b x, looked a b x → a ∈ handled topo st.N) {link : TopologyLink C}
    (hlink : link ∈ topo.getLinks current) :
    Explored topo src (fun a b x => looked a b x ∨ (a = current ∧ b = link.destNode ∧ x = link.weight))
      (relaxLink src current st link) := by
  have hedge : topo.Edge current link.destNode link.weight :=
    (topo.edge_iff_mem _ _ _).mpr ⟨link, hlink, rfl, rfl⟩
  have hkeep : ∀ hle : link.destNode ∈ handled topo st.N ∨ st.D link.destNode ≤ st.D current + link.weight,
      Explored topo src
        (fun a b x => looked a b x ∨ (a = current ∧ b = link.destNode ∧ x = link.weight)) st :=
    fun hle => ⟨h.labels.look hmost hle, h.links, h.inside, h.outside⟩
  unfold Routing.relaxLink
  by_cases hmem : link.destNode ∈ st.N
  · rw [if_pos hmem]
    by_cases hlt : st.D current + link.weight < st.D link.destNode
    · rw [if_pos hlt]
      have hopen : link.destNode ∉ handled topo st.N := fun hin => hin.2 hmem
      have hlower := h.labels.lower hmost hc hs hopen hlooked hedge hlt
      refine ⟨?_, ?_, h.inside, ?_⟩
      · convert hlower using 1
        funext v
        by_cases hv : v = link.destNode
        · subst hv
          simp only [Function.update_self]
          split <;> rfl
        · simp only [Function.update_of_ne hv]
      · intro v l hl
        dsimp only at hl
        by_cases hv : v = link.destNode
        · subst hv
          rw [Function.update_self] at hl
          split at hl
          · next heq =>
              obtain rfl := Option.some.inj hl
              exact heq ▸ hlink
          · exact h.links current l hl
        · rw [Function.update_of_ne hv] at hl
          exact h.links v l hl
      · intro v hv
        dsimp only
        rw [Function.update_of_ne (fun heq : v = link.destNode => hv (heq ▸ h.inside _ hmem))]
        exact h.outside v hv
    · rw [if_neg hlt]
      exact hkeep (Or.inr (not_lt.mp hlt))
  · rw [if_neg hmem]
    exact hkeep (Or.inl ⟨hedge.mem.2, hmem⟩)

theorem Explored.foldl_relaxLink (links : List (TopologyLink C)) {st : DijkstraState C}
    (h : Explored topo src looked st) (hc : current ∈ handled topo st.N) (hs : src ∈ handled topo st.N)
    (hmost : ∀ u ∈ handled topo st.N, st.D u ≤ st.D current)
    (hlooked : ∀ a b x, looked a b x → a ∈ handled topo st.N)
    (hlinks : ∀ link ∈ links, link ∈ topo.getLinks current) :
    Explored topo src
      (fun a b x => looked a b x ∨ (a = current ∧ ∃ link ∈ links, link.destNode = b ∧ link.weight = x))
      (links.foldl (Routing.relaxLink src current) st) := by
  induction links generalizing st looked with
  | nil => simpa using h
  | cons link links ih =>
      have hstep := h.relaxLink hc hs hmost hlooked (hlinks link (by simp))
      have hN : (Routing.relaxLink src current st link).N = st.N := relaxLink_N st link
      have hD : ∀ u, u ∈ handled topo st.N →
          (Routing.relaxLink src current st link).D u = st.D u := fun u hu => relaxLink_D link hu.2
      have hrest := ih hstep (by rw [hN]; exact hc) (by rw [hN]; exact hs)
        (by
          intro u hu
          rw [hN] at hu
          rw [hD u hu, hD current hc]
          exact hmost u hu)
        (by
          intro a b x hab
          rw [hN]
          rcases hab with hab | ⟨rfl, -, -⟩
          · exact hlooked a b x hab
          · exact hc)
        (fun l hl => hlinks l (by simp [hl]))
      rw [List.foldl_cons]
      convert hrest using 4 with a b x
      simp only [List.mem_cons, exists_eq_or_imp]
      grind

end Relax

/-! ### Rounds -/

/-- The search for the closest node either finds none below the bound it starts with, or ends in the
least of the distances. -/
theorem foldl_closest (D : NodeAddressT → C) (N : List NodeAddressT) (best : C × NodeAddressT) :
    let found := N.foldl (fun best i => if D i < best.1 then (D i, i) else best) best
    (found = best ∧ ∀ v ∈ N, best.1 ≤ D v) ∨
      (found.2 ∈ N ∧ found.1 = D found.2 ∧ found.1 < best.1 ∧ ∀ v ∈ N, found.1 ≤ D v) := by
  induction N generalizing best with
  | nil => exact Or.inl ⟨rfl, by simp⟩
  | cons i N ih =>
      dsimp only at ih ⊢
      rw [List.foldl_cons]
      by_cases hlt : D i < best.1
      · rw [if_pos hlt]
        rcases ih (D i, i) with ⟨hfound, hle⟩ | ⟨hmem, heq, hle, hall⟩
        · rw [hfound]
          exact Or.inr ⟨by simp, rfl, hlt, by simpa using hle⟩
        · refine Or.inr ⟨by simp [hmem], heq, hle.trans hlt, ?_⟩
          simpa using ⟨hle.le, hall⟩
      · rw [if_neg hlt]
        have hi : best.1 ≤ D i := not_lt.mp hlt
        rcases ih best with ⟨hfound, hle⟩ | ⟨hmem, heq, hle, hall⟩
        · exact Or.inl ⟨hfound, by simpa using ⟨hi, hle⟩⟩
        · refine Or.inr ⟨by simp [hmem], heq, hle, ?_⟩
          simpa using ⟨hle.le.trans hi, hall⟩

theorem findClosest_spec (D : NodeAddressT → C) (N : List NodeAddressT) (node : NodeAddressT) :
    (findClosest D N node ∈ N ∧ D (findClosest D N node) < ⊤ ∧ ∀ v ∈ N, D (findClosest D N node) ≤ D v) ∨
      (findClosest D N node = node ∧ ∀ v ∈ N, D v = ⊤) := by
  rcases foldl_closest D N (⊤, node) with ⟨hfound, hle⟩ | ⟨hmem, heq, hlt, hall⟩
  · exact Or.inr ⟨congrArg Prod.snd hfound, fun v hv => top_le_iff.mp (hle v hv)⟩
  · refine Or.inl ⟨hmem, heq.symm.trans_lt hlt, fun v hv => ?_⟩
    calc D (findClosest D N node)
        = _ := heq.symm
      _ ≤ D v := hall v hv

/-- The invariant of the main loop. -/
structure LoopInv (topo : Topology C) (src : NodeAddressT) (st : DijkstraState C) : Prop where
  explored : Explored topo src (fun u v w => u ∈ handled topo st.N ∧ topo.Edge u v w) st
  nodup : st.N.Nodup
  source : src ∈ handled topo st.N ∨ st.closestNode = src
  finite : ∀ u ∈ handled topo st.N, st.D u < ⊤
  closest : (st.closestNode ∈ st.N ∧ st.D st.closestNode < ⊤ ∧
      ∀ v ∈ st.N, st.D st.closestNode ≤ st.D v) ∨
    (st.closestNode ∉ st.N ∧ ∀ v ∈ st.N, st.D v = ⊤)

theorem LoopInv.start {topo : Topology C} {src : NodeAddressT} (hsrc : src ∈ topo.nodes) :
    LoopInv topo src (dijkstraStart topo src) := by
  have hother : ∀ v, v ≠ src → (dijkstraStart topo src).D v = ⊤ := by
    intro v hv
    simp [dijkstraStart, Function.update_of_ne hv]
  have hzero : (dijkstraStart topo src).D src = 0 := by simp [dijkstraStart]
  have hhandled : handled topo (dijkstraStart topo src).N = ∅ := by
    ext v
    simp only [handled, dijkstraStart, Topology.mem_getNodes, Set.mem_ofPred_eq, Set.mem_empty_iff_false,
      iff_false, not_and, not_not]
    exact id
  refine ⟨⟨?_, ?_, ?_, ?_⟩, ?_, Or.inr rfl, ?_, Or.inl ⟨?_, ?_, ?_⟩⟩
  · rw [hhandled]
    have hinit : Labels topo.Edge src ∅ (fun _ _ _ => False) (dijkstraStart topo src).D
        (fun v => ((dijkstraStart topo src).P v).map TopologyLink.destNode) :=
      .initial hzero hother fun _ => rfl
    simpa using hinit
  · intro v link hlink
    simp [dijkstraStart] at hlink
  · intro v hv
    exact (topo.mem_getNodes v).mp hv
  · intro v hv
    exact hother v (fun heq => hv (heq ▸ hsrc))
  · exact Std.TreeMap.nodup_keys
  · rw [hhandled]
    simp
  · exact (topo.mem_getNodes src).mpr hsrc
  · exact hzero.trans_lt Costs.zero_lt_top
  · intro v _
    exact hzero.le.trans (Costs.zero_le _)

/-- A round either fails with no open node at a finite distance, or handles one node. -/
theorem LoopInv.round {topo : Topology C} {src : NodeAddressT} {st : DijkstraState C}
    (h : LoopInv topo src st) :
    (dijkstraRound topo src st = none ∧ st.closestNode ∉ st.N ∧ ∀ v ∈ st.N, st.D v = ⊤) ∨
      ∃ st', dijkstraRound topo src st = some st' ∧ LoopInv topo src st' ∧
        st'.N.length + 1 = st.N.length := by
  rcases h.closest with ⟨hmem, hfin, hleast⟩ | ⟨hnot, htop⟩
  · right
    set c := st.closestNode with hcdef
    set st₀ : DijkstraState C := { st with N := st.N.erase c } with hst₀
    set st₁ := (topo.getLinks c).foldl (relaxLink src c) st₀ with hst₁
    have hN : st₁.N = st.N.erase c := foldl_relaxLink_N _ _
    have hround : dijkstraRound topo src st =
        some { st₁ with closestNode := findClosest st₁.D st₁.N c } := by
      unfold dijkstraRound
      rw [if_pos hmem]
    have hins : handled topo (st.N.erase c) = insert c (handled topo st.N) := by
      ext v
      simp only [handled, Set.mem_ofPred_eq, Set.mem_insert_iff, h.nodup.mem_erase_iff]
      have hin := h.explored.inside c hmem
      grind
    have hcmem : c ∈ handled topo st₀.N := by
      rw [hst₀, hins]
      exact Set.mem_insert _ _
    have hfar : ∀ v, v ∉ handled topo st.N → st.D c ≤ st.D v := by
      intro v hv
      by_cases hnode : v ∈ topo.nodes
      · exact hleast v (not_not.mp fun hvN => hv ⟨hnode, hvN⟩)
      · rw [h.explored.outside v hnode]
        exact le_top
    have hmost : ∀ u ∈ handled topo st₀.N, st₀.D u ≤ st₀.D c := by
      intro u hu
      rw [hst₀, hins] at hu
      rcases Set.mem_insert_iff.mp hu with rfl | hu
      · exact le_rfl
      · exact h.explored.labels.ordered u c hu fun hc => hc.2 hmem
    have hsmem : src ∈ handled topo st₀.N := by
      rw [hst₀, hins]
      rcases h.source with hs | hs
      · exact Set.mem_insert_of_mem _ hs
      · rw [← hs]
        exact Set.mem_insert _ _
    have hbefore : Explored topo src (fun u v w => u ∈ handled topo st.N ∧ topo.Edge u v w) st₀ := by
      refine ⟨?_, h.explored.links, ?_, h.explored.outside⟩
      · rw [hst₀, hins]
        exact h.explored.labels.settle hfar
      · intro v hv
        exact h.explored.inside v (List.mem_of_mem_erase hv)
    have hafter := hbefore.foldl_relaxLink (topo.getLinks c) hcmem hsmem hmost
      (fun a b x hab => by
        rw [hst₀, hins]
        exact Set.mem_insert_of_mem _ hab.1)
      (fun link hlink => hlink)
    have hrest : handled topo st₁.N = insert c (handled topo st.N) := by rw [hN, hins]
    refine ⟨_, hround, ⟨⟨?_, hafter.links, hafter.inside, hafter.outside⟩, ?_, ?_, ?_, ?_⟩, ?_⟩
    · refine hafter.labels.weaken ?_
      intro u v w huv
      obtain ⟨hu, hedge⟩ := huv
      rw [hrest] at hu
      rcases Set.mem_insert_iff.mp hu with rfl | hu
      · exact Or.inr ⟨rfl, (topo.edge_iff_mem _ _ _).mp hedge⟩
      · exact Or.inl ⟨hu, hedge⟩
    · exact hN ▸ h.nodup.erase c
    · exact Or.inl (by rw [hN]; exact hsmem)
    · intro u hu
      dsimp only at hu ⊢
      rw [hN] at hu
      rw [hst₁, foldl_relaxLink_D _ hu.2]
      rw [hins] at hu
      rcases Set.mem_insert_iff.mp hu with rfl | hu
      · exact hfin
      · exact h.finite u hu
    · rcases findClosest_spec st₁.D st₁.N c with hfound | ⟨hsame, htop⟩
      · exact Or.inl hfound
      · refine Or.inr ⟨?_, htop⟩
        dsimp only
        rw [hsame, hN]
        exact h.nodup.not_mem_erase
    · dsimp only
      rw [hN, List.length_erase_of_mem hmem]
      have hpos := List.length_pos_of_mem hmem
      omega
  · exact Or.inl ⟨by unfold dijkstraRound; rw [if_neg hnot], hnot, htop⟩

/-- The loop ends with every node handled, or in the failing assertion with nodes left at no finite
distance. -/
theorem LoopInv.loop {topo : Topology C} {src : NodeAddressT} {fuel : Nat} {st : DijkstraState C}
    (h : LoopInv topo src st) (hfuel : st.N.length ≤ fuel) :
    ∃ st', LoopInv topo src st' ∧ (∀ v ∈ st'.N, st'.D v = ⊤) ∧
      ((dijkstraLoop topo src fuel st = some st'.P ∧ st'.N = []) ∨
        (dijkstraLoop topo src fuel st = none ∧ st'.N ≠ [] ∧ st'.closestNode ∉ st'.N)) := by
  induction fuel generalizing st with
  | zero =>
      have hN : st.N = [] := List.length_eq_zero_iff.mp (Nat.le_zero.mp hfuel)
      exact ⟨st, h, by simp [hN], Or.inl ⟨by simp [dijkstraLoop, hN], hN⟩⟩
  | succ fuel ih =>
      by_cases hN : st.N = []
      · exact ⟨st, h, by simp [hN], Or.inl ⟨by simp [dijkstraLoop, hN], hN⟩⟩
      · rcases h.round with ⟨hround, hnot, htop⟩ | ⟨st₁, hround, hinv, hlen⟩
        · exact ⟨st, h, htop, Or.inr ⟨by simp [dijkstraLoop, hN, hround], hN, hnot⟩⟩
        · have hloop : dijkstraLoop topo src (fuel + 1) st = dijkstraLoop topo src fuel st₁ := by
            simp [dijkstraLoop, hN, hround]
          rw [hloop]
          exact ih hinv (by omega)

/-! ### Results -/

section Results

variable {topo : Topology C} {src : NodeAddressT}

/-- Where every open node is at no finite distance, the labels are final. -/
theorem LoopInv.final {st : DijkstraState C} (h : LoopInv topo src st) (hsrc : src ∈ topo.nodes)
    (hout : st.N = [] ∨ st.closestNode ∉ st.N) (htop : ∀ v ∈ st.N, st.D v = ⊤) :
    src ∈ handled topo st.N ∧ ∀ v, v ∉ handled topo st.N → st.D v = ⊤ := by
  constructor
  · rcases h.source with hs | hs
    · exact hs
    · refine ⟨hsrc, ?_⟩
      rcases hout with hN | hnot
      · simp [hN]
      · rwa [← hs]
  · intro v hv
    by_cases hnode : v ∈ topo.nodes
    · exact htop v (not_not.mp fun hvN => hv ⟨hnode, hvN⟩)
    · exact h.explored.outside v hnode

/-- What the final variables say of every node other than `src`. -/
theorem LoopInv.reachable_iff {st : DijkstraState C} (h : LoopInv topo src st) (hsrc : src ∈ topo.nodes)
    (hout : st.N = [] ∨ st.closestNode ∉ st.N) (htop : ∀ v ∈ st.N, st.D v = ⊤) {v : NodeAddressT}
    (hv : v ≠ src) : Reachable topo.Edge src v ↔ st.D v < ⊤ := by
  obtain ⟨hs, hopen⟩ := h.final hsrc hout htop
  exact h.explored.labels.reachable_iff (fun _ _ _ hu he => ⟨hu, he⟩) hs hopen hv

/-- `doDijkstra` returns exactly when every node can be reached from `src` at a finite cost; otherwise
its assertion fails. -/
theorem doDijkstra_isSome_iff (hsrc : src ∈ topo.nodes) :
    (doDijkstra topo src).isSome ↔ ∀ v ∈ topo.nodes, v ≠ src → Reachable topo.Edge src v := by
  obtain ⟨st, hinv, htop, ⟨hrun, hN⟩ | ⟨hrun, hN, hnot⟩⟩ := (LoopInv.start hsrc).loop le_rfl
  · have hdo : doDijkstra topo src = some st.P := hrun
    rw [hdo]
    refine ⟨fun _ v hv hne => ?_, fun _ => rfl⟩
    exact (hinv.reachable_iff hsrc (Or.inl hN) htop hne).mpr (hinv.finite v ⟨hv, by simp [hN]⟩)
  · have hdo : doDijkstra topo src = none := hrun
    rw [hdo]
    refine ⟨fun h => absurd h (by simp), fun hall => ?_⟩
    obtain ⟨v, hv⟩ := List.exists_mem_of_ne_nil _ hN
    obtain ⟨hs, -⟩ := hinv.final hsrc (Or.inr hnot) htop
    have hne : v ≠ src := fun heq => hs.2 (heq ▸ hv)
    have hfin := (hinv.reachable_iff hsrc (Or.inr hnot) htop hne).mp
      (hall v (hinv.explored.inside v hv) hne)
    exact absurd (htop v hv) hfin.ne

/-- The routes returned lead to every node other than `src`, and to no other; each names a link of `src` on
which a cheapest way to that node begins. -/
theorem doDijkstra_cheapest {routes : PathMap C} (hsrc : src ∈ topo.nodes)
    (hrun : doDijkstra topo src = some routes) :
    (∀ v, (routes v).isSome ↔ v ∈ topo.nodes ∧ v ≠ src) ∧
      ∀ v link, routes v = some link →
        topo.getLinkTo src link.destNode = some link ∧ CheapestBy topo.Edge src v link.destNode := by
  obtain ⟨st, hinv, htop, ⟨hdo, hN⟩ | ⟨hdo, -, -⟩⟩ := (LoopInv.start hsrc).loop le_rfl
  · obtain rfl : st.P = routes := Option.some.inj (hdo.symm.trans hrun)
    have hlab := hinv.explored.labels
    obtain ⟨hs, hopen⟩ := hinv.final hsrc (Or.inl hN) htop
    constructor
    · intro v
      constructor
      · intro hv
        have hne : v ≠ src := by
          intro heq
          have hfirst := hlab.first_start
          rw [← heq, Option.map_eq_none_iff] at hfirst
          simp [hfirst] at hv
        refine ⟨?_, hne⟩
        by_contra hnode
        have hun := hlab.unknown v hne (by simp [hinv.explored.outside v hnode])
        rw [Option.map_eq_none_iff] at hun
        simp [hun] at hv
      · intro hv
        obtain ⟨f, -, hf, -⟩ := hlab.walk v hv.2 (hinv.finite v ⟨hv.1, by simp [hN]⟩)
        obtain ⟨link, hlink, -⟩ := Option.map_eq_some_iff.mp hf
        simp [hlink]
    · intro v link hlink
      refine ⟨(topo.mem_getLinks src link).mp (hinv.explored.links v link hlink), ?_⟩
      exact hlab.cheapest (fun _ _ _ hu he => ⟨hu, he⟩) hs hopen (by simp [hlink])
  · exact absurd (hdo.symm.trans hrun) (by simp)

/-- What `doDijkstra` does on every topology: its assertion fails when some node is at no finite cost, and
otherwise its routes are the first links of cheapest ways to all other nodes. -/
theorem doDijkstra_spec (hsrc : src ∈ topo.nodes) :
    match doDijkstra topo src with
    | none => ∃ v ∈ topo.nodes, v ≠ src ∧ ¬Reachable topo.Edge src v
    | some routes =>
        (∀ v, (routes v).isSome ↔ v ∈ topo.nodes ∧ v ≠ src) ∧
          ∀ v link, routes v = some link →
            topo.getLinkTo src link.destNode = some link ∧ CheapestBy topo.Edge src v link.destNode := by
  have hiff := doDijkstra_isSome_iff hsrc
  split
  · next hrun =>
      by_contra hnone
      push Not at hnone
      have hsome := hiff.mpr hnone
      rw [hrun] at hsome
      simp at hsome
  · next routes hrun => exact doDijkstra_cheapest hsrc hrun

/-- Two nodes with a link each way. -/
def twoNodes : Topology (WithTop Nat) := .ofNetwork [(1, [(2, 3)]), (2, [(1, 4)])]

theorem doDijkstra_twoNodes :
    match doDijkstra twoNodes 1 with
    | none => ∃ v ∈ twoNodes.nodes, v ≠ 1 ∧ ¬Reachable twoNodes.Edge 1 v
    | some routes =>
        (∀ v, (routes v).isSome ↔ v ∈ twoNodes.nodes ∧ v ≠ 1) ∧
          ∀ v link, routes v = some link →
            twoNodes.getLinkTo 1 link.destNode = some link ∧ CheapestBy twoNodes.Edge 1 v link.destNode :=
  @doDijkstra_spec _ _ twoNodes 1 (by decide)

end Results

end Search

end ComputerNetworking.Routing
