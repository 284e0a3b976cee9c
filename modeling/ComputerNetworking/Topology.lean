import ComputerNetworking.OrderedMap

/-! The topology of the simulator: `support/Topology.cc` of ProtSim.

Nodes and links are kept in maps ordered by address, as in the source, and are visited in that order. -/

namespace ComputerNetworking.Routing

open OrderedMap

abbrev NodeAddressT := Int

variable {C : Type}

/-- Where keys are distinct, the entry found under a key is the one that has it. -/
theorem find?_of_mem {α β : Type} [DecidableEq β] (key : α → β) {entries : List α}
    (hnodup : (entries.map key).Nodup) {x : α} (hx : x ∈ entries) :
    entries.find? (fun y => key y = key x) = some x := by
  induction entries with
  | nil => simp at hx
  | cons y entries ih =>
      obtain ⟨hnot, hrest⟩ := List.nodup_cons.mp hnodup
      rcases List.mem_cons.mp hx with rfl | hx
      · simp
      · have hne : key y ≠ key x := fun heq => hnot (heq ▸ List.mem_map_of_mem hx)
        rw [List.find?_cons_of_neg (by simpa using hne)]
        exact ih hrest hx

structure TopologyLink (C : Type) where
  weight : C
  srcNode : NodeAddressT
  destNode : NodeAddressT
  deriving DecidableEq

structure TopologyNode (C : Type) where
  addr : NodeAddressT
  links : Std.TreeMap NodeAddressT (TopologyLink C)

namespace TopologyNode

/-- Create a link unless it exists; a link that exists gets the new weight. -/
def addLinkTo (node : TopologyNode C) (dest : NodeAddressT) (weight : C) : TopologyNode C :=
  { node with
    links := node.links.insert dest
      (match node.links[dest]? with
      | none => ⟨weight, node.addr, dest⟩
      | some link => { link with weight := weight }) }

@[simp] theorem addLinkTo_addr (node : TopologyNode C) (dest : NodeAddressT) (weight : C) :
    (node.addLinkTo dest weight).addr = node.addr := rfl

end TopologyNode

/-- Nodes by address. -/
abbrev NodeMapT (C : Type) := Std.TreeMap NodeAddressT (TopologyNode C)

namespace NodeMapT

def addNodeFor (nodes : NodeMapT C) (addr : NodeAddressT) : NodeMapT C :=
  if addr ∈ nodes then nodes else nodes.insert addr ⟨addr, ∅⟩

/-- `addLinkTo` of the node of address `src`, for the node of address `dest`. -/
def addLinkTo (nodes : NodeMapT C) (src dest : NodeAddressT) (weight : C) : NodeMapT C :=
  match (nodes.addNodeFor dest)[src]? with
  | none => nodes.addNodeFor dest
  | some node => (nodes.addNodeFor dest).insert src (node.addLinkTo dest weight)

/-- Every node and link stands under its own address, and every link leads to a node. -/
structure Closed (nodes : NodeMapT C) : Prop where
  keyed : ∀ (a : NodeAddressT) (n : TopologyNode C), nodes[a]? = some n → n.addr = a
  linked : ∀ (a : NodeAddressT) (n : TopologyNode C) (b : NodeAddressT) (l : TopologyLink C),
    nodes[a]? = some n → n.links[b]? = some l → l.srcNode = a ∧ l.destNode = b ∧ b ∈ nodes

theorem getElem?_addNodeFor (nodes : NodeMapT C) (addr a : NodeAddressT) :
    (nodes.addNodeFor addr)[a]? = if addr = a ∧ addr ∉ nodes then some ⟨addr, ∅⟩ else nodes[a]? := by
  by_cases hmem : addr ∈ nodes
  · simp [addNodeFor, hmem]
  · simp [addNodeFor, hmem, getElem?_insert]

theorem mem_addNodeFor (nodes : NodeMapT C) (addr a : NodeAddressT) :
    a ∈ nodes.addNodeFor addr ↔ a = addr ∨ a ∈ nodes := by
  by_cases hmem : addr ∈ nodes
  · simp only [addNodeFor, if_pos hmem]
    constructor
    · exact Or.inr
    · intro h
      rcases h with rfl | h
      · exact hmem
      · exact h
  · rw [addNodeFor, if_neg hmem, Std.TreeMap.mem_insert, Std.LawfulEqCmp.compare_eq_iff_eq,
      eq_comm]

theorem Closed.empty : Closed (∅ : NodeMapT C) where
  keyed := by simp
  linked := by simp

theorem Closed.addNodeFor {nodes : NodeMapT C} (h : Closed nodes) (addr : NodeAddressT) :
    Closed (nodes.addNodeFor addr) where
  keyed := by
    intro a n hn
    rw [getElem?_addNodeFor] at hn
    split at hn
    · next heq =>
        obtain rfl := Option.some.inj hn
        exact heq.1
    · exact h.keyed a n hn
  linked := by
    intro a n b l hn hl
    rw [getElem?_addNodeFor] at hn
    split at hn
    · obtain rfl := Option.some.inj hn
      simp at hl
    · obtain ⟨hsrc, hdest, hmem⟩ := h.linked a n b l hn hl
      exact ⟨hsrc, hdest, (mem_addNodeFor nodes addr b).mpr (Or.inr hmem)⟩

theorem Closed.addLinkTo {nodes : NodeMapT C} (h : Closed nodes) (src dest : NodeAddressT) (weight : C) :
    Closed (nodes.addLinkTo src dest weight) := by
  have hadd := h.addNodeFor dest
  unfold NodeMapT.addLinkTo
  split
  · exact hadd
  · next node hnode =>
      have hmem : dest ∈ nodes.addNodeFor dest := (mem_addNodeFor nodes dest dest).mpr (Or.inl rfl)
      constructor
      · intro a n hn
        rw [getElem?_insert] at hn
        split at hn
        · next heq =>
            obtain rfl := Option.some.inj hn
            exact (hadd.keyed src node hnode).trans heq
        · exact hadd.keyed a n hn
      · intro a n b l hn hl
        rw [getElem?_insert] at hn
        rw [Std.TreeMap.mem_insert]
        split at hn
        · next heq =>
            subst heq
            obtain rfl := Option.some.inj hn
            simp only [TopologyNode.addLinkTo, getElem?_insert] at hl
            split at hl
            · next hb =>
                subst hb
                obtain rfl := Option.some.inj hl
                split
                · exact ⟨hadd.keyed _ node hnode, rfl, Or.inr hmem⟩
                · next link hlink =>
                    obtain ⟨hsrc, hdest, -⟩ := hadd.linked _ node _ link hnode hlink
                    exact ⟨hsrc, hdest, Or.inr hmem⟩
            · obtain ⟨hsrc, hdest, hb⟩ := hadd.linked _ node b l hnode hl
              exact ⟨hsrc, hdest, Or.inr hb⟩
        · obtain ⟨hsrc, hdest, hb⟩ := hadd.linked a n b l hn hl
          exact ⟨hsrc, hdest, Or.inr hb⟩

end NodeMapT

/-- A network topology. -/
structure Topology (C : Type) where
  nodes : NodeMapT C
  closed : nodes.Closed

namespace Topology

def empty : Topology C := ⟨∅, .empty⟩

def addNodeFor (topo : Topology C) (addr : NodeAddressT) : Topology C :=
  ⟨topo.nodes.addNodeFor addr, topo.closed.addNodeFor addr⟩

def addLinkTo (topo : Topology C) (src dest : NodeAddressT) (weight : C) : Topology C :=
  ⟨topo.nodes.addLinkTo src dest weight, topo.closed.addLinkTo src dest weight⟩

/-- The addresses of the nodes, in the order of a walk through the node set. -/
def getNodes (topo : Topology C) : List NodeAddressT := topo.nodes.keys

/-- The links of a node, in the order of their indices. -/
def getLinks (topo : Topology C) (addr : NodeAddressT) : List (TopologyLink C) :=
  match topo.nodes[addr]? with
  | none => []
  | some node => node.links.toList.map Prod.snd

def getLinkTo (topo : Topology C) (addr peer : NodeAddressT) : Option (TopologyLink C) :=
  topo.nodes[addr]?.bind fun node => node.links[peer]?

/-- The link from `u` to `v` has weight `w`. -/
def Edge (topo : Topology C) (u v : NodeAddressT) (w : C) : Prop :=
  ∃ link, topo.getLinkTo u v = some link ∧ link.weight = w

theorem mem_getNodes (topo : Topology C) (a : NodeAddressT) : a ∈ topo.getNodes ↔ a ∈ topo.nodes :=
  Std.TreeMap.mem_keys

theorem mem_getLinks (topo : Topology C) (a : NodeAddressT) (link : TopologyLink C) :
    link ∈ topo.getLinks a ↔ topo.getLinkTo a link.destNode = some link := by
  unfold getLinks getLinkTo
  split
  · next hnode => simp [hnode]
  · next node hnode =>
      simp only [List.mem_map, Prod.exists, Std.TreeMap.mem_toList_iff_getElem?_eq_some, hnode,
        Option.bind_some]
      constructor
      · intro h
        obtain ⟨b, l, hl, rfl⟩ := h
        rw [(topo.closed.linked a node b l hnode hl).2.1]
        exact hl
      · intro h
        exact ⟨link.destNode, link, h, rfl⟩

theorem Edge.mem {topo : Topology C} {u v : NodeAddressT} {w : C} (h : topo.Edge u v w) :
    u ∈ topo.nodes ∧ v ∈ topo.nodes := by
  obtain ⟨link, hlink, -⟩ := h
  obtain ⟨node, hnode, hpeer⟩ := Option.bind_eq_some_iff.mp hlink
  exact ⟨Std.TreeMap.mem_iff_isSome_getElem?.mpr (by simp [hnode]),
    (topo.closed.linked u node v link hnode hpeer).2.2⟩

/-- An edge is a link in the list of links of its first node. -/
theorem edge_iff_mem (topo : Topology C) (u v : NodeAddressT) (w : C) :
    topo.Edge u v w ↔ ∃ link ∈ topo.getLinks u, link.destNode = v ∧ link.weight = w := by
  constructor
  · intro h
    obtain ⟨link, hlink, hw⟩ := h
    obtain ⟨node, hnode, hpeer⟩ := Option.bind_eq_some_iff.mp hlink
    have hdest := (topo.closed.linked u node v link hnode hpeer).2.1
    exact ⟨link, (topo.mem_getLinks u link).mpr (by rw [hdest]; exact hlink), hdest, hw⟩
  · intro h
    obtain ⟨link, hmem, hdest, hw⟩ := h
    exact ⟨link, hdest ▸ (topo.mem_getLinks u link).mp hmem, hw⟩

/-! ### Topologies of networks -/

theorem getLinkTo_addNodeFor (topo : Topology C) (addr u v : NodeAddressT) :
    (topo.addNodeFor addr).getLinkTo u v = topo.getLinkTo u v := by
  unfold getLinkTo addNodeFor
  dsimp only
  rw [NodeMapT.getElem?_addNodeFor]
  split
  · next h =>
      obtain ⟨rfl, hmem⟩ := h
      rw [Std.TreeMap.getElem?_eq_none hmem]
      simp
  · rfl

/-- A new weight is the weight of that link alone. -/
theorem getLinkTo_addLinkTo (topo : Topology C) {a : NodeAddressT} (ha : a ∈ topo.nodes)
    (b : NodeAddressT) (w : C) (u v : NodeAddressT) :
    (topo.addLinkTo a b w).getLinkTo u v = if u = a ∧ v = b then some ⟨w, a, b⟩ else topo.getLinkTo u v := by
  have hmem : a ∈ (topo.addNodeFor b).nodes := (NodeMapT.mem_addNodeFor _ _ _).mpr (Or.inr ha)
  obtain ⟨node, hnode⟩ := Option.isSome_iff_exists.mp (Std.TreeMap.mem_iff_isSome_getElem?.mp hmem)
  have hnode' : (topo.nodes.addNodeFor b)[a]? = some node := hnode
  have hadd : (topo.addLinkTo a b w).nodes =
      (topo.addNodeFor b).nodes.insert a (node.addLinkTo b w) := by
    simp only [addLinkTo, NodeMapT.addLinkTo, hnode']
    rfl
  have hold : topo.getLinkTo a v = node.links[v]? := by
    rw [← getLinkTo_addNodeFor topo b, getLinkTo, hnode, Option.bind_some]
  rw [getLinkTo, hadd, getElem?_insert]
  by_cases hu : a = u
  · subst hu
    rw [if_pos rfl, Option.bind_some, TopologyNode.addLinkTo, getElem?_insert]
    by_cases hv : b = v
    · subst hv
      rw [if_pos rfl, if_pos ⟨rfl, rfl⟩]
      split
      · rw [(topo.addNodeFor b).closed.keyed a node hnode]
      · next link hlink =>
          obtain ⟨hsrc, hdest, -⟩ := (topo.addNodeFor b).closed.linked a node b link hnode hlink
          rw [← hsrc, ← hdest]
    · rw [if_neg hv, if_neg (fun h => hv h.2.symm), hold]
  · rw [if_neg hu, if_neg (fun h => hu h.1.symm)]
    exact getLinkTo_addNodeFor topo b u v

theorem mem_addNodeFor (topo : Topology C) (addr a : NodeAddressT) :
    a ∈ (topo.addNodeFor addr).nodes ↔ a = addr ∨ a ∈ topo.nodes :=
  NodeMapT.mem_addNodeFor topo.nodes addr a

theorem mem_addLinkTo (topo : Topology C) {a : NodeAddressT} (ha : a ∈ topo.nodes) (b : NodeAddressT) (w : C)
    (x : NodeAddressT) : x ∈ (topo.addLinkTo a b w).nodes ↔ x = b ∨ x ∈ topo.nodes := by
  have hmem : a ∈ topo.nodes.addNodeFor b := (NodeMapT.mem_addNodeFor _ _ _).mpr (Or.inr ha)
  obtain ⟨node, hnode⟩ := Option.isSome_iff_exists.mp (Std.TreeMap.mem_iff_isSome_getElem?.mp hmem)
  have hadd : (topo.addLinkTo a b w).nodes = (topo.nodes.addNodeFor b).insert a (node.addLinkTo b w) := by
    simp only [addLinkTo, NodeMapT.addLinkTo, hnode]
  rw [hadd, Std.TreeMap.mem_insert, Std.LawfulEqCmp.compare_eq_iff_eq, NodeMapT.mem_addNodeFor]
  grind

/-- The constructor from the extracted network: each node with its links out, in the order of the nodes. -/
def ofNetwork (net : List (NodeAddressT × List (NodeAddressT × C))) : Topology C :=
  net.foldl
    (fun topo node =>
      node.2.foldl (fun topo link => topo.addLinkTo node.1 link.1 link.2) (topo.addNodeFor node.1))
    empty

/-- The weight of the last of the links to `v`. -/
def lastWeight (links : List (NodeAddressT × C)) (v : NodeAddressT) : Option C :=
  (links.filter fun link => link.1 = v).getLast?.map Prod.snd

theorem foldl_addLinkTo (a : NodeAddressT) (links : List (NodeAddressT × C)) (topo : Topology C)
    (ha : a ∈ topo.nodes) :
    (∀ x, x ∈ (links.foldl (fun topo link => topo.addLinkTo a link.1 link.2) topo).nodes ↔
      x ∈ links.map Prod.fst ∨ x ∈ topo.nodes) ∧
    ∀ u v, (links.foldl (fun topo link => topo.addLinkTo a link.1 link.2) topo).getLinkTo u v =
      if u = a then ((lastWeight links v).map fun w => ⟨w, a, v⟩).or (topo.getLinkTo u v)
      else topo.getLinkTo u v := by
  induction links generalizing topo with
  | nil => simp [lastWeight]
  | cons link links ih =>
      have ha' : a ∈ (topo.addLinkTo a link.1 link.2).nodes := (mem_addLinkTo topo ha _ _ _).mpr (Or.inr ha)
      obtain ⟨hmem, hlink⟩ := ih _ ha'
      constructor
      · intro x
        rw [List.foldl_cons, hmem, mem_addLinkTo topo ha]
        simp only [List.map_cons, List.mem_cons]
        grind
      · intro u v
        rw [List.foldl_cons, hlink, getLinkTo_addLinkTo topo ha]
        by_cases hu : u = a
        · subst hu
          by_cases hv : v = link.1
          · subst hv
            simp only [lastWeight, true_and, if_true, List.filter_cons, decide_true,
              List.getLast?_cons, Option.map_some]
            cases ((links.filter fun l => l.1 = link.1).getLast?) <;> simp
          · have hv' : ¬link.1 = v := fun h => hv h.symm
            simp [lastWeight, hv, hv']
        · simp [hu]

/-- The nodes are those of the network and the ends of their links. With an entry for each node, the link
from `u` to `v` has the weight of the last of the parallel links. -/
theorem mem_ofNetwork (net : List (NodeAddressT × List (NodeAddressT × C))) (x : NodeAddressT) :
    x ∈ (ofNetwork net).nodes ↔ ∃ node ∈ net, x = node.1 ∨ x ∈ node.2.map Prod.fst := by
  have hgen : ∀ topo : Topology C, x ∈ (net.foldl
      (fun topo node =>
        node.2.foldl (fun topo link => topo.addLinkTo node.1 link.1 link.2) (topo.addNodeFor node.1))
      topo).nodes ↔ (∃ node ∈ net, x = node.1 ∨ x ∈ node.2.map Prod.fst) ∨ x ∈ topo.nodes := by
    induction net with
    | nil => simp
    | cons node net ih =>
        intro topo
        rw [List.foldl_cons, ih, (foldl_addLinkTo node.1 node.2 _
          ((mem_addNodeFor topo node.1 node.1).mpr (Or.inl rfl))).1, mem_addNodeFor]
        simp only [List.mem_cons, exists_eq_or_imp]
        grind
  have hempty : x ∉ (empty : Topology C).nodes := by simp [empty]
  rw [ofNetwork, hgen]
  simp [hempty]

theorem getLinkTo_ofNetwork {net : List (NodeAddressT × List (NodeAddressT × C))}
    (hnodup : (net.map Prod.fst).Nodup) {node : NodeAddressT × List (NodeAddressT × C)} (hnode : node ∈ net)
    (v : NodeAddressT) :
    (ofNetwork net).getLinkTo node.1 v = (lastWeight node.2 v).map fun w => ⟨w, node.1, v⟩ := by
  have hgen : ∀ topo : Topology C, ∀ u, (net.foldl
      (fun topo node =>
        node.2.foldl (fun topo link => topo.addLinkTo node.1 link.1 link.2) (topo.addNodeFor node.1))
      topo).getLinkTo u v =
      match net.find? fun n => n.1 = u with
      | none => topo.getLinkTo u v
      | some n => ((lastWeight n.2 v).map fun w => ⟨w, u, v⟩).or (topo.getLinkTo u v) := by
    clear hnode
    induction net with
    | nil => simp
    | cons node net ih =>
        intro topo u
        obtain ⟨hnot, hrest⟩ := List.nodup_cons.mp hnodup
        rw [List.foldl_cons, ih hrest, (foldl_addLinkTo node.1 node.2 _
          ((mem_addNodeFor topo node.1 node.1).mpr (Or.inl rfl))).2, getLinkTo_addNodeFor]
        by_cases hu : u = node.1
        · subst hu
          have hnone : net.find? (fun n => n.1 = node.1) = none := by
            rw [List.find?_eq_none]
            intro n hn heq
            exact hnot (List.mem_map.mpr ⟨n, hn, by simpa using heq⟩)
          rw [hnone]
          simp
        · have hu' : ¬node.1 = u := fun h => hu h.symm
          simp [hu, hu']
  rw [ofNetwork, hgen, find?_of_mem Prod.fst hnodup hnode]
  simp [empty, getLinkTo]

end Topology

end ComputerNetworking.Routing
