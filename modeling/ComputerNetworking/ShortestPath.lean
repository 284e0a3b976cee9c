import Mathlib.Order.BoundedOrder.Basic
import Mathlib.Data.Set.Insert
import Mathlib.Logic.Function.Basic
import Mathlib.Data.Nat.Cast.Order.Ring
import Mathlib.Algebra.Order.Ring.WithTop
import Mathlib.Data.Finset.Card

/-! Cheapest walks, and what the labels of a label-setting search say about them.

The cost of a walk is summed edge by edge from its start. Nothing but order is asked of the sum, so that
rounded sums are costs too: addition need not be associative. -/

namespace ComputerNetworking.ShortestPath

/-- Costs that an edge can only raise, with an infinite one. -/
class Costs (D : Type*) extends LinearOrder D, OrderTop D, Zero D, Add D where
  zero_le (d : D) : 0 ≤ d
  zero_lt_top : (0 : D) < ⊤
  le_add (d w : D) : d ≤ d + w
  add_mono {d e : D} (w : D) : d ≤ e → d + w ≤ e + w

variable {V D : Type*} [Costs D] {E : V → V → D → Prop} {s : V}

/-- A walk from `s` along the edges `E`: the nodes it visits after `s`, the node it ends in, its cost. -/
inductive Walk (E : V → V → D → Prop) (s : V) : List V → V → D → Prop where
  | start : Walk E s [] s 0
  | step {p : List V} {u v : V} {d w : D} :
      Walk E s p u d → E u v w → Walk E s (p ++ [v]) v (d + w)

/-- `v` is reached from `s` at a finite cost. -/
def Reachable (E : V → V → D → Prop) (s v : V) : Prop :=
  ∃ p d, Walk E s p v d ∧ d < ⊤

/-- A walk to `v` that begins with `h` and is as cheap as any walk to `v`. -/
def CheapestBy (E : V → V → D → Prop) (s v h : V) : Prop :=
  ∃ p d, Walk E s (h :: p) v d ∧ d < ⊤ ∧ ∀ q e, Walk E s q v e → d ≤ e

theorem Walk.nil {v : V} {d : D} (h : Walk E s [] v d) : v = s ∧ d = 0 := by
  generalize hp : ([] : List V) = p at h
  cases h with
  | start => exact ⟨rfl, rfl⟩
  | step _ _ => simp at hp

/-- The walk of one edge. -/
theorem Walk.edge {v : V} {w : D} (h : E s v w) : Walk E s [v] v (0 + w) := by
  simpa using Walk.step (p := []) .start h

/-- `d` is the least cost at which `v` is reached from `s`. -/
def Distance (E : V → V → D → Prop) (s v : V) (d : D) : Prop :=
  (∃ p, Walk E s p v d) ∧ ∀ q e, Walk E s q v e → d ≤ e

theorem Distance.self (v : V) : Distance E v v 0 :=
  ⟨⟨[], .start⟩, fun _ _ _ => Costs.zero_le _⟩

theorem Distance.unique {v : V} {d e : D} (hd : Distance E s v d) (he : Distance E s v e) : d = e := by
  obtain ⟨⟨p, hp⟩, hdmin⟩ := hd
  obtain ⟨⟨q, hq⟩, hemin⟩ := he
  exact le_antisymm (hdmin q e hq) (hemin p d hp)

/-- Labels of a search that has settled some nodes and looked at some edges: what is known of the cost of
each node, and by which neighbour of the start it is reached. -/
structure Labels (E : V → V → D → Prop) (s : V) (settled : Set V) (looked : V → V → D → Prop)
    (dist : V → D) (first : V → Option V) : Prop where
  start : dist s = 0
  first_start : first s = none
  walk : ∀ v, v ≠ s → dist v < ⊤ → ∃ h p, first v = some h ∧ Walk E s (h :: p) v (dist v)
  unknown : ∀ v, v ≠ s → ¬dist v < ⊤ → first v = none
  relaxed : ∀ u v w, looked u v w → dist v ≤ dist u + w
  ordered : ∀ u v, u ∈ settled → v ∉ settled → dist u ≤ dist v

section Search

variable {settled : Set V} {looked : V → V → D → Prop} {dist : V → D} {first : V → Option V}

/-- Before the search, only the start has a label. -/
theorem Labels.initial (hstart : dist s = 0) (hother : ∀ v, v ≠ s → dist v = ⊤) (hfirst : ∀ v, first v = none) :
    Labels E s ∅ (fun _ _ _ => False) dist first where
  start := hstart
  first_start := hfirst s
  walk := by
    intro v hv hlt
    exact absurd hlt (by simp [hother v hv])
  unknown := fun v _ _ => hfirst v
  relaxed := fun _ _ _ h => h.elim
  ordered := fun _ _ h => (Set.notMem_empty _ h).elim

/-- An edge looked at may be forgotten. -/
theorem Labels.weaken (h : Labels E s settled looked dist first) {looked' : V → V → D → Prop}
    (hsub : ∀ u v w, looked' u v w → looked u v w) : Labels E s settled looked' dist first :=
  { h with relaxed := fun u v w huv => h.relaxed u v w (hsub u v w huv) }

/-- A node of least label may be settled. -/
theorem Labels.settle (h : Labels E s settled looked dist first) {c : V}
    (hleast : ∀ v, v ∉ settled → dist c ≤ dist v) :
    Labels E s (insert c settled) looked dist first where
  start := h.start
  first_start := h.first_start
  walk := h.walk
  unknown := h.unknown
  relaxed := h.relaxed
  ordered := by
    intro u v hu hv
    have hv' : v ∉ settled := fun hmem => hv (Set.mem_insert_of_mem c hmem)
    rcases Set.mem_insert_iff.mp hu with rfl | hu
    · exact hleast v hv'
    · exact h.ordered u v hu hv'

/-- Once `c` is the costliest of the settled nodes, an edge of `c` that promises no less needs no change. -/
theorem Labels.look (h : Labels E s settled looked dist first) {c v : V} {w : D}
    (hmost : ∀ u ∈ settled, dist u ≤ dist c) (hkeep : v ∈ settled ∨ dist v ≤ dist c + w) :
    Labels E s settled (fun a b x => looked a b x ∨ (a = c ∧ b = v ∧ x = w)) dist first where
  start := h.start
  first_start := h.first_start
  walk := h.walk
  unknown := h.unknown
  relaxed := by
    intro a b x hab
    rcases hab with hab | ⟨rfl, rfl, rfl⟩
    · exact h.relaxed a b x hab
    · rcases hkeep with hv | hle
      · exact (hmost b hv).trans (Costs.le_add _ _)
      · exact hle
  ordered := h.ordered

/-- An edge of `c` to an unsettled node that promises less lowers the label of that node. -/
theorem Labels.lower [DecidableEq V] (h : Labels E s settled looked dist first) {c v : V} {w : D}
    (hmost : ∀ u ∈ settled, dist u ≤ dist c) (hc : c ∈ settled) (hs : s ∈ settled) (hv : v ∉ settled)
    (hlooked : ∀ a b x, looked a b x → a ∈ settled) (hedge : E c v w) (hlt : dist c + w < dist v) :
    Labels E s settled (fun a b x => looked a b x ∨ (a = c ∧ b = v ∧ x = w))
      (Function.update dist v (dist c + w))
      (Function.update first v (if c = s then some v else first c)) := by
  have hkeep : ∀ u ∈ settled, Function.update dist v (dist c + w) u = dist u := by
    intro u hu
    exact Function.update_of_ne (fun heq : u = v => hv (heq ▸ hu)) _ _
  have hvs : v ≠ s := fun heq => hv (heq ▸ hs)
  have hdrop : ∀ u, Function.update dist v (dist c + w) u ≤ dist u := by
    intro u
    by_cases hu : u = v
    · rw [hu, Function.update_self]
      exact hlt.le
    · rw [Function.update_of_ne hu]
  refine ⟨?_, ?_, ?_, ?_, ?_, ?_⟩
  · rw [hkeep s hs, h.start]
  · rw [Function.update_of_ne hvs.symm, h.first_start]
  · -- the walk to `v` prolongs the walk to `c`
    intro u hu hfin
    by_cases huv : u = v
    · subst huv
      rw [Function.update_self] at hfin ⊢
      rw [Function.update_self]
      by_cases hcs : c = s
      · subst hcs
        refine ⟨u, [], by simp, ?_⟩
        rw [h.start]
        exact .edge hedge
      · have hcfin : dist c < ⊤ := (Costs.le_add _ _).trans_lt hfin
        obtain ⟨f, p, hf, hwalk⟩ := h.walk c hcs hcfin
        exact ⟨f, p ++ [u], by rw [if_neg hcs, hf], hwalk.step hedge⟩
    · rw [Function.update_of_ne huv] at hfin ⊢
      rw [Function.update_of_ne huv]
      exact h.walk u hu hfin
  · intro u hu hinf
    by_cases huv : u = v
    · subst huv
      rw [Function.update_self] at hinf
      exact absurd (hlt.trans_le le_top) hinf
    · rw [Function.update_of_ne huv] at hinf ⊢
      exact h.unknown u hu hinf
  · intro a b x hab
    rcases hab with hab | ⟨rfl, rfl, rfl⟩
    · rw [hkeep a (hlooked a b x hab)]
      exact (hdrop b).trans (h.relaxed a b x hab)
    · rw [Function.update_self, hkeep a hc]
  · intro u b hu hb
    rw [hkeep u hu]
    by_cases hbv : b = v
    · subst hbv
      rw [Function.update_self]
      exact (hmost u hu).trans (Costs.le_add _ _)
    · rw [Function.update_of_ne hbv]
      exact h.ordered u b hu hb

/-- With every edge of the settled nodes looked at, a walk costs no less than the label of a settled node it
ends in, and no less than any bound on the open labels when it ends elsewhere. -/
theorem Labels.frontier (h : Labels E s settled looked dist first) {m : D}
    (hall : ∀ u v w, u ∈ settled → E u v w → looked u v w) (hs : s ∈ settled)
    (hopen : ∀ v, v ∉ settled → m ≤ dist v) (hbound : ∀ u ∈ settled, dist u ≤ m)
    {p : List V} {v : V} {d : D} (hwalk : Walk E s p v d) :
    (v ∈ settled → dist v ≤ d) ∧ (v ∉ settled → m ≤ d) := by
  induction hwalk with
  | start => exact ⟨fun _ => h.start.le, fun hv => absurd hs hv⟩
  | @step p u v d w _ hedge ih =>
      by_cases hu : u ∈ settled
      · have hle : dist v ≤ d + w :=
          (h.relaxed u v w (hall u v w hu hedge)).trans (Costs.add_mono w (ih.1 hu))
        exact ⟨fun _ => hle, fun hv => (hopen v hv).trans hle⟩
      · have hle : m ≤ d + w := (ih.2 hu).trans (Costs.le_add d w)
        exact ⟨fun hv => (hbound v hv).trans hle, fun _ => hle⟩

/-- When no open node has a finite label, the labels are the costs of cheapest walks: the finite ones are
reached as the labels say, the others at no finite cost. -/
theorem Labels.reachable_iff (h : Labels E s settled looked dist first)
    (hall : ∀ u v w, u ∈ settled → E u v w → looked u v w) (hs : s ∈ settled)
    (hopen : ∀ v, v ∉ settled → dist v = ⊤) {v : V} (hv : v ≠ s) :
    Reachable E s v ↔ dist v < ⊤ := by
  constructor
  · rintro ⟨p, d, hwalk, hfin⟩
    have hcost := h.frontier (m := ⊤) hall hs (fun u hu => (hopen u hu).ge) (fun _ _ => le_top) hwalk
    by_cases hset : v ∈ settled
    · exact (hcost.1 hset).trans_lt hfin
    · exact absurd (hcost.2 hset) hfin.not_ge
  · intro hfin
    obtain ⟨f, p, -, hwalk⟩ := h.walk v hv hfin
    exact ⟨f :: p, dist v, hwalk, hfin⟩

/-- By then the first nodes are those of cheapest walks. -/
theorem Labels.cheapest (h : Labels E s settled looked dist first)
    (hall : ∀ u v w, u ∈ settled → E u v w → looked u v w) (hs : s ∈ settled)
    (hopen : ∀ v, v ∉ settled → dist v = ⊤) {v f : V} (hf : first v = some f) :
    CheapestBy E s v f := by
  have hv : v ≠ s := by
    intro heq
    rw [heq, h.first_start] at hf
    simp at hf
  have hfin : dist v < ⊤ := by
    by_contra hinf
    rw [h.unknown v hv hinf] at hf
    simp at hf
  obtain ⟨f', p, hf', hwalk⟩ := h.walk v hv hfin
  obtain rfl : f' = f := Option.some.inj (hf'.symm.trans hf)
  refine ⟨p, dist v, hwalk, hfin, fun q e hq => ?_⟩
  have hcost := h.frontier (m := ⊤) hall hs (fun u hu => (hopen u hu).ge) (fun _ _ => le_top) hq
  have hset : v ∈ settled := by
    by_contra hnot
    exact hfin.ne (hopen v hnot)
  exact hcost.1 hset

end Search

/-! ### Exact costs

Where costs add up exactly, cheapest walks are made of cheapest walks, and following first nodes leads to the
destination. -/

class ExactCosts (D : Type*) extends Costs D where
  zero_add' (d : D) : 0 + d = d
  add_zero' (d : D) : d + 0 = d
  add_assoc' (d e f : D) : d + e + f = d + (e + f)
  le_add_left (w d : D) : d ≤ w + d
  add_cancel {w d e : D} : w < ⊤ → w + d ≤ w + e → d ≤ e
  lt_add {w d : D} : 0 < w → d < ⊤ → d < w + d

instance withTopExactCosts {W : Type*} [AddCommMonoid W] [LinearOrder W] [IsOrderedCancelAddMonoid W]
    [CanonicallyOrderedAdd W] : ExactCosts (WithTop W) where
  zero_le d := zero_le
  zero_lt_top := WithTop.coe_lt_top 0
  le_add d w := le_self_add
  add_mono w h := add_le_add_left h w
  zero_add' := zero_add
  add_zero' := add_zero
  add_assoc' := add_assoc
  le_add_left w d := le_add_self
  add_cancel hw h := (WithTop.add_le_add_iff_left hw.ne).mp h
  lt_add {w d} hw hd := by
    calc d = d + 0 := (add_zero d).symm
      _ < d + w := (WithTop.add_lt_add_iff_left hd.ne).mpr hw
      _ = w + d := add_comm d w

section Exact

variable {V D : Type*} [ExactCosts D] {E : V → V → D → Prop}

/-- A walk goes on from the end of its first edge. -/
theorem Walk.uncons {s h v : V} {p : List V} {d : D} (hwalk : Walk E s (h :: p) v d) :
    ∃ w e, E s h w ∧ Walk E h p v e ∧ d = w + e := by
  generalize hq : h :: p = q at hwalk
  induction hwalk generalizing p with
  | start => simp at hq
  | @step q u v d x hpre hedge ih =>
      cases q with
      | nil =>
          obtain ⟨rfl, rfl⟩ := hpre.nil
          rw [List.nil_append, List.cons.injEq] at hq
          obtain ⟨rfl, rfl⟩ := hq
          exact ⟨x, 0, hedge, .start, by rw [ExactCosts.zero_add', ExactCosts.add_zero']⟩
      | cons h' q =>
          rw [List.cons_append, List.cons.injEq] at hq
          obtain ⟨rfl, rfl⟩ := hq
          obtain ⟨w, e, hfirst, hrest, rfl⟩ := ih rfl
          exact ⟨w, e + x, hfirst, hrest.step hedge, ExactCosts.add_assoc' _ _ _⟩

theorem Walk.cons {s h v : V} {p : List V} {w e : D} (hedge : E s h w) (hwalk : Walk E h p v e) :
    Walk E s (h :: p) v (w + e) := by
  induction hwalk with
  | start =>
      rw [ExactCosts.add_zero', ← ExactCosts.zero_add' w]
      exact .edge hedge
  | @step q u v d x _ hlast ih =>
      rw [← ExactCosts.add_assoc']
      exact ih.step hlast

/-- What remains of a cheapest walk after its first edge is a cheapest walk. -/
theorem CheapestBy.next {s v h : V} (hby : CheapestBy E s v h) :
    ∃ w e, E s h w ∧ Distance E s v (w + e) ∧ Distance E h v e ∧ e < ⊤ := by
  obtain ⟨p, d, hwalk, hfin, hmin⟩ := hby
  obtain ⟨w, e, hedge, hrest, rfl⟩ := hwalk.uncons
  have hw : w < ⊤ := (Costs.le_add w e).trans_lt hfin
  refine ⟨w, e, hedge, ⟨⟨h :: p, hwalk⟩, hmin⟩, ⟨⟨p, hrest⟩, fun q e' hq => ?_⟩,
    (ExactCosts.le_add_left w e).trans_lt hfin⟩
  exact ExactCosts.add_cancel hw (hmin (h :: q) (w + e') (.cons hedge hq))

/-- The nodes met on the way from a node to `v` when every node sends on to its `hop`. -/
def Follows (hop : V → Option V) (v : V) : V → List V → Prop
  | u, [] => u = v
  | u, h :: p => u ≠ v ∧ hop u = some h ∧ Follows hop v h p

/-- With positive weights, hops that begin cheapest walks lead to `v`, on a cheapest walk that meets no node
twice. -/
theorem exists_follows {hop : V → Option V} {v : V} (nodes : Finset V) (hv : v ∈ nodes)
    (hpos : ∀ u h w, E u h w → 0 < w)
    (hhop : ∀ u ∈ nodes, u ≠ v → ∃ h ∈ nodes, hop u = some h ∧ CheapestBy E u v h) :
    ∀ u ∈ nodes, ∃ p d, Follows hop v u p ∧ Walk E u p v d ∧ Distance E u v d ∧ (u :: p).Nodup ∧
      p.length < nodes.card := by
  classical
  have hdist : ∀ u, ∃ d, u ∈ nodes → Distance E u v d := by
    intro u
    by_cases hu : u ∈ nodes ∧ u ≠ v
    · obtain ⟨h, -, -, hby⟩ := hhop u hu.1 hu.2
      obtain ⟨w, e, -, hd, -, -⟩ := hby.next
      exact ⟨w + e, fun _ => hd⟩
    · refine ⟨0, fun hmem => ?_⟩
      obtain rfl : u = v := not_not.mp fun hne => hu ⟨hmem, hne⟩
      exact .self u
  choose dist hdist using hdist
  -- the nodes nearer to `v` than `u`: each hop leaves fewer of them
  let near : V → Finset V := fun u => nodes.filter fun x => dist x < dist u
  have hlen : ∀ n u, u ∈ nodes → (near u).card = n →
      ∃ p d, Follows hop v u p ∧ Walk E u p v d ∧ Distance E u v d ∧ (u :: p).Nodup ∧
        (∀ x ∈ p, dist x < dist u) ∧ p.length ≤ n := by
    intro n
    induction n using Nat.strongRecOn with
    | ind n ih =>
        intro u hu hn
        by_cases huv : u = v
        · subst huv
          exact ⟨[], 0, rfl, .start, .self u, List.nodup_singleton u, by simp, Nat.zero_le n⟩
        · obtain ⟨h, hh, hnext, hby⟩ := hhop u hu huv
          obtain ⟨w, e, hedge, hdu, hdh, hfin⟩ := hby.next
          have heu : dist u = w + e := (hdist u hu).unique hdu
          have heh : dist h = e := (hdist h hh).unique hdh
          have hlt : dist h < dist u := by
            rw [heu, heh]
            exact ExactCosts.lt_add (hpos u h w hedge) hfin
          have hsub : near h ⊂ near u := by
            refine Finset.ssubset_iff_subset_ne.mpr ⟨?_, ?_⟩
            · intro x hx
              simp only [near, Finset.mem_filter] at hx ⊢
              exact ⟨hx.1, hx.2.trans hlt⟩
            · intro heq
              have hin : h ∈ near u := Finset.mem_filter.mpr ⟨hh, hlt⟩
              rw [← heq] at hin
              exact lt_irrefl _ (Finset.mem_filter.mp hin).2
          obtain ⟨p, d, hfollow, hwalk, hd, hnodup, hnear, hple⟩ :=
            ih _ (hn ▸ Finset.card_lt_card hsub) h hh rfl
          obtain rfl : d = e := hd.unique hdh
          have hnear' : ∀ x ∈ h :: p, dist x < dist u := by
            intro x hx
            rcases List.mem_cons.mp hx with rfl | hx
            · exact hlt
            · exact (hnear x hx).trans hlt
          have hnot : u ∉ h :: p := fun hmem => lt_irrefl _ (hnear' u hmem)
          refine ⟨h :: p, w + d, ⟨huv, hnext, hfollow⟩, .cons hedge hwalk, hdu,
            List.nodup_cons.mpr ⟨hnot, hnodup⟩, hnear', ?_⟩
          rw [List.length_cons]
          have := Finset.card_lt_card hsub
          omega
  intro u hu
  obtain ⟨p, d, hfollow, hwalk, hd, hnodup, -, hple⟩ := hlen _ u hu rfl
  refine ⟨p, d, hfollow, hwalk, hd, hnodup, hple.trans_lt (Finset.card_lt_card ?_)⟩
  refine Finset.ssubset_iff_subset_ne.mpr ⟨Finset.filter_subset _ _, fun heq => ?_⟩
  have hin : u ∈ near u := heq ▸ hu
  exact lt_irrefl _ (Finset.mem_filter.mp hin).2

end Exact

/-! ### Whole costs

Rounded sums of whole numbers are exact up to a bound. Where cheapest walks cost less than the bound, they are
the cheapest walks of exact sums. -/

/-- Costs whose sum grows with either part. -/
class RoundedCosts (D : Type*) extends Costs D where
  add_mono_right {d e : D} (w : D) : d ≤ e → w + d ≤ w + e

section Whole

variable {V D : Type*} [RoundedCosts D] {E : V → V → D → Prop} {num : ℕ → D} {bound : ℕ}

/-- Up to `bound`, the costs `num` gives to whole numbers are ordered and add up as these do. -/
structure WholeBelow (num : ℕ → D) (bound : ℕ) : Prop where
  zero : num 0 = 0
  lt {m n : ℕ} : m < n → n ≤ bound → num m < num n
  add {m n : ℕ} : m + n ≤ bound → num m + num n = num (m + n)
  lt_top : num bound < ⊤

theorem WholeBelow.le (h : WholeBelow num bound) {m n : ℕ} (hmn : m ≤ n) (hn : n ≤ bound) :
    num m ≤ num n := by
  rcases hmn.lt_or_eq with hlt | rfl
  · exact (h.lt hlt hn).le
  · exact le_rfl

/-- The cost `d` has the exact value `n`, or both are beyond the bound. -/
structure Rounds (num : ℕ → D) (bound n : ℕ) (d : D) : Prop where
  within : n ≤ bound → d = num n
  beyond : bound < n → num bound ≤ d

theorem Rounds.add (h : WholeBelow num bound) {m n : ℕ} {d : D} (hd : Rounds num bound m d) (hn : n ≤ bound) :
    Rounds num bound (m + n) (d + num n) where
  within := by
    intro hle
    rw [hd.within (by omega), h.add hle]
  beyond := by
    intro hlt
    by_cases hm : m ≤ bound
    · calc num bound = num m + num (bound - m) := by rw [h.add (by omega), Nat.add_sub_cancel' hm]
        _ ≤ num m + num n := RoundedCosts.add_mono_right _ (h.le (by omega) hn)
        _ = d + num n := by rw [hd.within hm]
    · exact (hd.beyond (not_le.mp hm)).trans (Costs.le_add _ _)

theorem Rounds.le_of_lt {n : ℕ} {d : D} (hd : Rounds num bound n d) (hlt : d < num bound) : n ≤ bound := by
  by_contra hn
  exact (hd.beyond (not_le.mp hn)).not_gt hlt

/-- A lesser exact value within the bound is a lesser cost. -/
theorem Rounds.mono (h : WholeBelow num bound) {m n : ℕ} {d e : D} (hd : Rounds num bound m d)
    (he : Rounds num bound n e) (hm : m ≤ bound) (hmn : m ≤ n) : d ≤ e := by
  rw [hd.within hm]
  by_cases hn : n ≤ bound
  · rw [he.within hn]
    exact h.le hmn hn
  · exact (h.le hm le_rfl).trans (he.beyond (not_le.mp hn))

/-- The edges of whole weights, with exact weights. -/
def ExactEdge (E : V → V → D → Prop) (num : ℕ → D) (bound : ℕ) (u v : V) (w : WithTop ℕ) : Prop :=
  ∃ n : ℕ, n ≤ bound ∧ w = n ∧ E u v (num n)

theorem Walk.exact (h : WholeBelow num bound) (hwhole : ∀ u v w, E u v w → ∃ n ≤ bound, w = num n)
    {s v : V} {p : List V} {d : D} (hwalk : Walk E s p v d) :
    ∃ n : ℕ, Walk (ExactEdge E num bound) s p v n ∧ Rounds num bound n d := by
  induction hwalk with
  | start => exact ⟨0, .start, fun _ => h.zero.symm, fun hlt => absurd hlt (Nat.not_lt_zero bound)⟩
  | @step p u v d w _ hedge ih =>
      obtain ⟨m, hexact, hm⟩ := ih
      obtain ⟨n, hn, rfl⟩ := hwhole u v w hedge
      refine ⟨m + n, ?_, hm.add h hn⟩
      rw [Nat.cast_add]
      exact hexact.step ⟨n, hn, rfl, hedge⟩

theorem Walk.rounded (h : WholeBelow num bound) {s v : V} {p : List V} {c : WithTop ℕ}
    (hwalk : Walk (ExactEdge E num bound) s p v c) :
    ∃ (n : ℕ) (d : D), c = n ∧ Walk E s p v d ∧ Rounds num bound n d := by
  induction hwalk with
  | start => exact ⟨0, 0, rfl, .start, fun _ => h.zero.symm, fun hlt => absurd hlt (Nat.not_lt_zero bound)⟩
  | @step p u v c w _ hedge ih =>
      obtain ⟨m, d, rfl, hround, hm⟩ := ih
      obtain ⟨n, hn, rfl, hedge⟩ := hedge
      exact ⟨m + n, d + num n, (Nat.cast_add m n).symm, hround.step hedge, hm.add h hn⟩

/-- A cheapest walk that costs less than the bound is a cheapest walk of exact sums. -/
theorem CheapestBy.exact (h : WholeBelow num bound) (hwhole : ∀ u v w, E u v w → ∃ n ≤ bound, w = num n)
    {s v f : V} (hby : CheapestBy E s v f) (hnear : ∃ p d, Walk E s p v d ∧ d < num bound) :
    CheapestBy (ExactEdge E num bound) s v f := by
  obtain ⟨p, d, hwalk, -, hmin⟩ := hby
  obtain ⟨p', d', hwalk', hlt⟩ := hnear
  obtain ⟨n, hexact, hn⟩ := hwalk.exact h hwhole
  have hle : n ≤ bound := hn.le_of_lt ((hmin p' d' hwalk').trans_lt hlt)
  refine ⟨p, n, hexact, WithTop.coe_lt_top n, ?_⟩
  intro q c hq
  obtain ⟨m, e, rfl, hround, hm⟩ := hq.rounded h
  rw [Nat.cast_le]
  by_contra hnot
  have hmn : m < n := not_le.mp hnot
  have hde : d ≤ e := hmin q e hround
  rw [hn.within hle, hm.within (hmn.le.trans hle)] at hde
  exact (h.lt hmn hle).not_ge hde

/-- A cheapest walk of exact sums is a cheapest walk, if there is one that costs less than the bound. -/
theorem Distance.rounded (h : WholeBelow num bound) (hwhole : ∀ u v w, E u v w → ∃ n ≤ bound, w = num n)
    {s v : V} {p : List V} {c : WithTop ℕ} (hwalk : Walk (ExactEdge E num bound) s p v c)
    (hdist : Distance (ExactEdge E num bound) s v c) (hnear : ∃ p d, Walk E s p v d ∧ d < num bound) :
    ∃ d, Walk E s p v d ∧ Distance E s v d := by
  obtain ⟨n, d, rfl, hround, hn⟩ := hwalk.rounded h
  obtain ⟨p', d', hwalk', hlt⟩ := hnear
  obtain ⟨m, hexact, hm⟩ := hwalk'.exact h hwhole
  have hle : n ≤ bound := (Nat.cast_le.mp (hdist.2 p' m hexact)).trans (hm.le_of_lt hlt)
  refine ⟨d, hround, ⟨p, hround⟩, ?_⟩
  intro q e hq
  obtain ⟨k, hk, he⟩ := hq.exact h hwhole
  exact hn.mono h he hle (Nat.cast_le.mp (hdist.2 q k hk))

/-- `exists_follows` for rounded sums of whole weights, where `v` is reached at costs below the bound. -/
theorem exists_follows_whole (h : WholeBelow num bound) {hop : V → Option V} {v : V} (nodes : Finset V)
    (hv : v ∈ nodes) (hwhole : ∀ u x w, E u x w → ∃ n ≤ bound, w = num n)
    (hpos : ∀ u x w, E u x w → 0 < w) (hnear : ∀ u ∈ nodes, ∃ p d, Walk E u p v d ∧ d < num bound)
    (hhop : ∀ u ∈ nodes, u ≠ v → ∃ x ∈ nodes, hop u = some x ∧ CheapestBy E u v x) :
    ∀ u ∈ nodes, ∃ p d, Follows hop v u p ∧ Walk E u p v d ∧ Distance E u v d ∧ (u :: p).Nodup ∧
      p.length < nodes.card := by
  have hpos' : ∀ u x c, ExactEdge E num bound u x c → 0 < c := by
    intro u x c hedge
    obtain ⟨n, -, rfl, hedge⟩ := hedge
    have hn : n ≠ 0 := by
      intro hzero
      rw [hzero, h.zero] at hedge
      exact lt_irrefl _ (hpos u x 0 hedge)
    exact_mod_cast Nat.pos_of_ne_zero hn
  have hhop' : ∀ u ∈ nodes, u ≠ v →
      ∃ x ∈ nodes, hop u = some x ∧ CheapestBy (ExactEdge E num bound) u v x := by
    intro u hu hne
    obtain ⟨x, hx, hnext, hby⟩ := hhop u hu hne
    exact ⟨x, hx, hnext, hby.exact h hwhole (hnear u hu)⟩
  intro u hu
  obtain ⟨p, c, hfollow, hwalk, hdist, hnodup, hlen⟩ := exists_follows nodes hv hpos' hhop' u hu
  obtain ⟨d, hround, hd⟩ := hdist.rounded h hwhole hwalk (hnear u hu)
  exact ⟨p, d, hfollow, hround, hd, hnodup, hlen⟩

end Whole

end ComputerNetworking.ShortestPath
