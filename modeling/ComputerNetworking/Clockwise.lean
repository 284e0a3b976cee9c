import Mathlib.Data.Finset.Max
import Mathlib.Data.Finset.Dedup
import Mathlib.Data.Fin.Basic
import Mathlib.Logic.Relation
import Mathlib.Order.Fin.Basic

/-! Places on a circle of `N` positions.

`offset a b` is the way from `a` to `b` in clockwise direction. `IsNext M x y` says that `y` is the
first other member of `M` that one meets going clockwise from `x`; the half-open arcs from the
members to their next ones partition the circle, and going from member to member comes closer to any
position until the member is reached in whose arc the position lies. -/

namespace ComputerNetworking.Clockwise

variable {N : ℕ}

/-- The way from `a` to `b` in clockwise direction. -/
def offset (a b : Fin N) : ℕ := (b - a).val

section Offset

variable (a b c : Fin N)

theorem offset_eq : offset a b = if a.val ≤ b.val then b.val - a.val else N + b.val - a.val := by
  rw [offset, Fin.sub_def]
  change (N - a.val + b.val) % N = _
  split
  · rw [show N - a.val + b.val = b.val - a.val + N by omega, Nat.add_mod_right,
      Nat.mod_eq_of_lt (by omega)]
  · rw [Nat.mod_eq_of_lt (by omega)]
    omega

theorem offset_lt : offset a b < N := (b - a).isLt

@[simp] theorem offset_self : offset a a = 0 := by
  rw [offset_eq, if_pos le_rfl, Nat.sub_self]

variable {a b c}

theorem offset_pos (h : a ≠ b) : 0 < offset a b := by
  rw [offset_eq]
  split <;> omega

theorem offset_left_injective (h : offset a c = offset b c) : a = b := by
  rw [offset_eq, offset_eq] at h
  apply Fin.ext
  split at h <;> split at h <;> omega

theorem offset_right_injective (h : offset a b = offset a c) : b = c := by
  rw [offset_eq, offset_eq] at h
  apply Fin.ext
  split at h <;> split at h <;> omega

/-- The way to a position beyond `b` goes through `b`. -/
theorem offset_of_le (h : offset a b ≤ offset a c) : offset a b + offset b c = offset a c := by
  simp only [offset_eq] at h ⊢
  split <;> split <;> split <;> simp_all <;> omega

/-- The way from `b` to a position before it goes around. -/
theorem offset_of_lt (h : offset a c < offset a b) : offset a b + offset b c = offset a c + N := by
  simp only [offset_eq] at h ⊢
  split <;> split <;> split <;> simp_all <;> omega

theorem offset_add_swap (h : 0 < offset a b) : offset a b + offset b a = N := by
  have hround := offset_of_lt (a := a) (b := b) (c := a) (by rwa [offset_self])
  rwa [offset_self, Nat.zero_add] at hround

/-- The start of an arc lies inside every arc with the same end that is not shorter. -/
theorem offset_lt_of_arc (hpos : 0 < offset b c) (hle : offset b c ≤ offset a c) :
    offset a b < offset a c := by
  by_contra hge
  have hround := offset_of_le (a := a) (b := c) (c := b) (by omega)
  have hswap := offset_add_swap hpos
  have hlt := offset_lt a b
  omega

end Offset

variable {σ : Type*} (pos : σ → Fin N)

/-- `y` is the first other member of `M` going clockwise from `x`. -/
structure IsNext (M : Finset σ) (x y : σ) : Prop where
  mem : y ∈ M
  ne : y ≠ x
  first : ∀ z ∈ M, z ≠ x → offset (pos x) (pos y) ≤ offset (pos x) (pos z)

/-- `x` is the last member of `M` that one meets going clockwise to the position. -/
def IsOwner (M : Finset σ) (x : σ) (k : Fin N) : Prop :=
  x ∈ M ∧ ∀ z ∈ M, offset (pos x) k ≤ offset (pos z) k

section Members

variable {pos} {M : Finset σ} {x y z j : σ} {k : Fin N}

theorem IsNext.unique (hinj : Set.InjOn pos M) (h : IsNext pos M x y) (h' : IsNext pos M x z) :
    y = z := by
  have hle := h.first z h'.mem h'.ne
  have hge := h'.first y h.mem h.ne
  exact hinj h.mem h'.mem (offset_right_injective (le_antisymm hle hge))

theorem IsNext.pos_ne (hinj : Set.InjOn pos M) (h : IsNext pos M x y) (hx : x ∈ M) :
    pos x ≠ pos y := fun heq => h.ne (hinj h.mem hx heq.symm)

/-- No other member lies inside the arc from a member to its next one. -/
theorem IsNext.not_between (h : IsNext pos M x y) (hz : z ∈ M) (hne : z ≠ x) :
    ¬offset (pos x) (pos z) < offset (pos x) (pos y) := by
  have := h.first z hz hne
  omega

section Insert

variable [DecidableEq σ]

theorem isNext_insert_singleton (hne : j ≠ x) :
    IsNext pos (insert j {x}) x j ∧ IsNext pos (insert j {x}) j x := by
  refine ⟨⟨by simp, hne, fun z hz hz' => ?_⟩, ⟨by simp, hne.symm, fun z hz hz' => ?_⟩⟩
  · rw [Finset.mem_insert, Finset.mem_singleton] at hz
    rw [hz.resolve_right hz']
  · rw [Finset.mem_insert, Finset.mem_singleton] at hz
    rw [hz.resolve_left hz']

/-- A new member inside an arc divides it. -/
theorem IsNext.insert_left (h : IsNext pos M x y) (hj : j ∉ M) (hx : x ∈ M)
    (harc : offset (pos x) (pos j) < offset (pos x) (pos y)) : IsNext pos (insert j M) x j := by
  refine ⟨Finset.mem_insert_self j M, fun heq => hj (heq ▸ hx), fun z hz hne => ?_⟩
  rcases Finset.mem_insert.mp hz with rfl | hz
  · exact le_rfl
  · have := h.first z hz hne
    omega

theorem IsNext.insert_right (h : IsNext pos M x y) (hj : j ∉ M) (hne : pos x ≠ pos j)
    (harc : offset (pos x) (pos j) < offset (pos x) (pos y)) : IsNext pos (insert j M) j y := by
  refine ⟨Finset.mem_insert_of_mem h.mem, fun heq => hj (heq ▸ h.mem), fun z hz hzj => ?_⟩
  have hz := (Finset.mem_insert.mp hz).resolve_left hzj
  have hy := offset_of_le harc.le
  by_cases hzx : z = x
  · subst hzx
    have hlt := offset_lt (pos z) (pos y)
    have hswap := offset_add_swap (offset_pos hne)
    omega
  · have hfirst := h.first z hz hzx
    have hz' := offset_of_le (a := pos x) (b := pos j) (c := pos z) (by omega)
    omega

/-- A new member leaves the other arcs as they are. -/
theorem IsNext.insert_other {x' y' : σ} (h : IsNext pos M x y) (hx : x ∈ M)
    (harc : offset (pos x) (pos j) < offset (pos x) (pos y)) (hx' : x' ∈ M) (hne : x' ≠ x)
    (h' : IsNext pos M x' y') : IsNext pos (insert j M) x' y' := by
  refine ⟨Finset.mem_insert_of_mem h'.mem, h'.ne, fun z hz hzx => ?_⟩
  rcases Finset.mem_insert.mp hz with rfl | hz
  · -- otherwise `x'` lies before `z` on the way from `x`, inside its arc
    by_contra hlt
    have hfirst := h.first x' hx' hne
    have hfirst' := h'.first x hx (Ne.symm hne)
    have hback := offset_of_le (a := pos x') (b := pos z) (c := pos x) (by omega)
    have hswap := offset_add_swap (a := pos x) (b := pos x') (by omega)
    have hswap' := offset_add_swap (a := pos z) (b := pos x) (by omega)
    omega
  · exact h'.first z hz hzx

end Insert

/-! ### Owners of positions -/

/-- A position lies in the arc of a member exactly when the member owns it. -/
theorem IsNext.lt_iff_isOwner (hinj : Set.InjOn pos M) (h : IsNext pos M x y) (hx : x ∈ M) :
    offset (pos x) k < offset (pos x) (pos y) ↔ IsOwner pos M x k := by
  constructor
  · refine fun hlt => ⟨hx, fun z hz => ?_⟩
    by_cases hzx : z = x
    · rw [hzx]
    · have hfirst := h.first z hz hzx
      have hround := offset_of_lt (a := pos x) (b := pos z) (c := k) (by omega)
      have := offset_lt (pos x) (pos z)
      omega
  · intro hown
    by_contra hge
    have hy := hown.2 y h.mem
    have hpos := offset_pos (h.pos_ne hinj hx)
    have hback := offset_of_le (a := pos x) (b := pos y) (c := k) (by omega)
    omega

/-- Exactly one member owns a position. -/
theorem existsUnique_isOwner (hinj : Set.InjOn pos M) (hM : M.Nonempty) (k : Fin N) :
    ∃! x, IsOwner pos M x k := by
  obtain ⟨x, hx, hmin⟩ := Finset.exists_min_image M (fun z => offset (pos z) k) hM
  refine ⟨x, ⟨hx, hmin⟩, fun z hz => ?_⟩
  exact hinj hz.1 hx (offset_left_injective (le_antisymm (hz.2 x hx) (hmin z hz.1)))

/-- The members that are closer to a position than `x`. -/
def closer (pos : σ → Fin N) (M : Finset σ) (x : σ) (k : Fin N) : Finset σ :=
  M.filter fun z => offset (pos z) k < offset (pos x) k

/-- A member has at most all other members closer to a position. -/
theorem card_closer_lt (pos : σ → Fin N) (hx : x ∈ M) (k : Fin N) :
    (closer pos M x k).card < M.card := by
  refine Finset.card_lt_card (Finset.filter_ssubset.mpr ⟨x, hx, ?_⟩)
  omega

/-- Going on to the next member comes closer to a position outside of the arc. -/
theorem IsNext.card_closer_lt (hinj : Set.InjOn pos M) (h : IsNext pos M x y) (hx : x ∈ M)
    (hout : ¬offset (pos x) k < offset (pos x) (pos y)) :
    (closer pos M y k).card < (closer pos M x k).card := by
  have hpos := offset_pos (h.pos_ne hinj hx)
  have hback := offset_of_le (a := pos x) (b := pos y) (c := k) (by omega)
  apply Finset.card_lt_card
  rw [Finset.ssubset_iff_of_subset]
  · refine ⟨y, Finset.mem_filter.mpr ⟨h.mem, by omega⟩, fun hmem => ?_⟩
    exact absurd (Finset.mem_filter.mp hmem).2 (lt_irrefl _)
  · intro z hz
    rw [closer, Finset.mem_filter] at hz ⊢
    exact ⟨hz.1, by omega⟩

end Members

/-! ### Walks -/

section Walks

variable {pos} {next : σ → σ → Prop} {a b : σ} {k : Fin N}

/-- A step over an arc in which the position does not lie. -/
def Outside (pos : σ → Fin N) (next : σ → σ → Prop) (k : Fin N) (a b : σ) : Prop :=
  next a b ∧ ¬offset (pos a) k < offset (pos a) (pos b)

/-- A step over such an arc does not lead away from the position. -/
theorem Outside.offset_le (h : Outside pos next k a b) : offset (pos b) k ≤ offset (pos a) k := by
  have hway := offset_of_le (a := pos a) (b := pos b) (c := k) (by have := h.2; omega)
  omega

theorem offset_le_of_walk (h : Relation.ReflTransGen (Outside pos next k) a b) :
    offset (pos b) k ≤ offset (pos a) k := by
  induction h with
  | refl => exact le_rfl
  | tail _ hstep ih => exact hstep.offset_le.trans ih

/-- Where every walk leads back, and not all places that walks lead to are at one position, some walk
leads to the arc in which a position lies. -/
theorem exists_arc_of_walks (hback : ∀ b, Relation.ReflTransGen next a b → Relation.ReflTransGen next b a)
    (hb : Relation.ReflTransGen next a b) (hne : pos b ≠ pos a) (k : Fin N) :
    ∃ c d, Relation.ReflTransGen (Outside pos next k) a c ∧ next c d ∧
      offset (pos c) k < offset (pos c) (pos d) := by
  by_contra hnone
  push Not at hnone
  -- no walk from `a` meets the position
  have hwalk : ∀ c d, Relation.ReflTransGen (Outside pos next k) a c → Relation.ReflTransGen next c d →
      Relation.ReflTransGen (Outside pos next k) c d := by
    intro c d hc hcd
    induction hcd with
    | refl => exact .refl
    | tail _ hstep ih => exact ih.tail ⟨hstep, not_lt.mpr (hnone _ _ (hc.trans ih) hstep)⟩
  have hforth := hwalk a b .refl hb
  have hhome := hwalk b a hforth (hback b hb)
  exact hne (offset_left_injective
    (le_antisymm (offset_le_of_walk hforth) (offset_le_of_walk hhome)))

end Walks

/-! ### Sorted lists of members -/

section Sorted

variable {pos} {l : List σ}

theorem val_lt_of_sorted (pos : σ → Fin N) (h : l.Pairwise fun a b => pos a < pos b) {i j : ℕ} {a b : σ}
    (ha : l[i]? = some a) (hb : l[j]? = some b) (hij : i < j) : (pos a).val < (pos b).val := by
  obtain ⟨hi, rfl⟩ := List.getElem?_eq_some_iff.mp ha
  obtain ⟨hj, rfl⟩ := List.getElem?_eq_some_iff.mp hb
  exact List.pairwise_iff_getElem.mp h i j hi hj hij

variable [DecidableEq σ]

/-- In a sorted list of two or more members the next one follows, and the first follows the last. -/
theorem isNext_of_sorted (h : l.Pairwise fun a b => pos a < pos b) (hlen : 2 ≤ l.length) {i : ℕ}
    {x y : σ} (hx : l[i]? = some x) (hy : l[(i + 1) % l.length]? = some y) :
    IsNext pos l.toFinset x y := by
  have hi := (List.getElem?_eq_some_iff.mp hx).1
  -- where the other members lie
  have hplace : (pos x).val ≠ (pos y).val ∧ ∀ z ∈ l, z ≠ x →
      if (pos x).val < (pos y).val then (pos y).val ≤ (pos z).val ∨ (pos z).val < (pos x).val
      else (pos y).val ≤ (pos z).val ∧ (pos z).val < (pos x).val := by
    rcases Nat.lt_or_ge (i + 1) l.length with hin | hend
    · rw [Nat.mod_eq_of_lt hin] at hy
      have hxy := val_lt_of_sorted pos h hx hy (by omega)
      refine ⟨by omega, fun z hz hzx => ?_⟩
      rw [if_pos hxy]
      obtain ⟨j, hj⟩ := List.mem_iff_getElem?.mp hz
      rcases Nat.lt_trichotomy j i with hlt | rfl | hgt
      · exact .inr (val_lt_of_sorted pos h hj hx hlt)
      · exact absurd (Option.some.inj (hj.symm.trans hx)) hzx
      · rcases Nat.lt_or_eq_of_le (Nat.succ_le_of_lt hgt) with hlt | rfl
        · exact .inl (val_lt_of_sorted pos h hy hj hlt).le
        · rw [Option.some.inj (hj.symm.trans hy)]
          exact .inl le_rfl
    · rw [show i + 1 = l.length by omega, Nat.mod_self] at hy
      have hyx := val_lt_of_sorted pos h hy hx (by omega)
      refine ⟨by omega, fun z hz hzx => ?_⟩
      rw [if_neg (by omega)]
      obtain ⟨j, hj⟩ := List.mem_iff_getElem?.mp hz
      have hjlt := (List.getElem?_eq_some_iff.mp hj).1
      have hji : j ≠ i := by
        rintro rfl
        exact hzx (Option.some.inj (hj.symm.trans hx))
      refine ⟨?_, val_lt_of_sorted pos h hj hx (by omega)⟩
      rcases Nat.eq_zero_or_pos j with rfl | hpos
      · rw [Option.some.inj (hj.symm.trans hy)]
      · exact (val_lt_of_sorted pos h hy hj hpos).le
  refine ⟨List.mem_toFinset.mpr (List.mem_of_getElem? hy), ?_, fun z hz hzx => ?_⟩
  · rintro rfl
    exact hplace.1 rfl
  · have hz' := hplace.2 z (List.mem_toFinset.mp hz) hzx
    rw [offset_eq, offset_eq]
    split at hz' <;> split <;> split <;> omega

/-- Members in distinct positions can be listed in the order of their positions. -/
theorem exists_sorted (M : Finset σ) (hinj : Set.InjOn pos M) :
    ∃ l : List σ, l.toFinset = M ∧ l.Pairwise fun a b => pos a < pos b := by
  induction M using Finset.induction_on_max_value pos with
  | empty => exact ⟨[], rfl, List.Pairwise.nil⟩
  | insert x M hx hmax ih =>
      obtain ⟨l, rfl, hl⟩ := ih (hinj.mono (Finset.coe_subset.mpr (Finset.subset_insert x M)))
      refine ⟨l ++ [x], by ext z; simp, ?_⟩
      rw [List.pairwise_append]
      refine ⟨hl, List.pairwise_singleton _ x, fun z hz y hy => ?_⟩
      rw [List.mem_singleton] at hy
      subst hy
      refine lt_of_le_of_ne (hmax z (List.mem_toFinset.mpr hz)) fun heq => hx ?_
      have hzy : z = y := hinj (by simp [hz]) (by simp) heq
      rw [← hzy]
      exact List.mem_toFinset.mpr hz

end Sorted

end ComputerNetworking.Clockwise
