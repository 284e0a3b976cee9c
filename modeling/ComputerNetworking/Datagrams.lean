import Mathlib.Logic.Function.Basic
import ComputerNetworking.Transition

/-! Parties that exchange datagrams.

The datagrams in flight may be delivered in any order. A party reacts to a datagram with a new state
and with datagrams of its own, ends, or leaves it unread. What else its reaction depends on, such as
the contents of fresh memory, is of type `H`. -/

namespace ComputerNetworking.Datagrams

open Transition

variable {A P Q H K μ ν : Type*}

structure Datagram (A μ : Type*) where
  src : A
  dst : A
  payload : μ
  deriving DecidableEq, Repr

def Datagram.map (enc : μ → ν) (d : Datagram A μ) : Datagram A ν :=
  ⟨d.src, d.dst, enc d.payload⟩

/-- What a party does with a datagram. -/
inductive Outcome (A P μ : Type*) where
  | ended
  | unread
  | handled (party : P) (sends : List (Datagram A μ))

def Outcome.map (state : P → Q) (enc : μ → ν) : Outcome A P μ → Outcome A Q ν
  | .ended => .ended
  | .unread => .unread
  | .handled party sends => .handled (state party) (sends.map (Datagram.map enc))

structure Network (A P μ : Type*) where
  parties : A → Option P
  inFlight : List (Datagram A μ)

section Steps

variable [DecidableEq A]

/-- The network after a party has reacted to a datagram; `rest` are the other datagrams. -/
def Network.after (net : Network A P μ) (d : Datagram A μ) (rest : List (Datagram A μ)) :
    Outcome A P μ → Network A P μ
  | .ended => ⟨Function.update net.parties d.dst none, rest⟩
  | .unread => net
  | .handled party sends => ⟨Function.update net.parties d.dst (some party), rest ++ sends⟩

/-- The delivery of a datagram that is in flight. -/
inductive Deliver (react : H → P → Datagram A μ → Outcome A P μ) :
    Network A P μ → H × Datagram A μ → Network A P μ → Prop where
  | mk {net : Network A P μ} (h : H) {d : Datagram A μ} {before after : List (Datagram A μ)} {p : P}
      (hflight : net.inFlight = before ++ d :: after) (hp : net.parties d.dst = some p) :
      Deliver react net (h, d) (net.after d (before ++ after) (react h p d))

/-- What a delivery does: the datagram leaves the network and its receiver reacts. -/
theorem Deliver.elim {react : H → P → Datagram A μ → Outcome A P μ} {net next : Network A P μ}
    {h : H} {d : Datagram A μ} (hstep : Deliver react net (h, d) next) :
    ∃ rest p, net.inFlight.Perm (d :: rest) ∧ net.parties d.dst = some p ∧
      next = net.after d rest (react h p d) := by
  obtain ⟨-, hflight, hp⟩ := hstep
  rename_i before after p
  exact ⟨before ++ after, p, hflight ▸ List.perm_middle, hp, rfl⟩

/-- A datagram in flight to a party can be delivered. -/
theorem Deliver.of_mem (react : H → P → Datagram A μ → Outcome A P μ) {net : Network A P μ} (h : H)
    {d : Datagram A μ} {p : P} (hmem : d ∈ net.inFlight) (hp : net.parties d.dst = some p) :
    ∃ next, Deliver react net (h, d) next := by
  obtain ⟨before, after, hflight⟩ := List.append_of_mem hmem
  exact ⟨_, .mk h hflight hp⟩

/-- A party that does not run is not started by a delivery. -/
theorem Deliver.parties_none {react : H → P → Datagram A μ → Outcome A P μ} {net next : Network A P μ}
    {e : H × Datagram A μ} (hstep : Deliver react net e next) {a : A} (ha : net.parties a = none) :
    next.parties a = none := by
  obtain ⟨h, d⟩ := e
  obtain ⟨rest, p, -, hp, rfl⟩ := hstep.elim
  have hne : a ≠ d.dst := by
    rintro rfl
    rw [ha] at hp
    cases hp
  cases react h p d with
  | ended => exact (Function.update_of_ne hne _ _).trans ha
  | unread => exact ha
  | handled party sends => exact (Function.update_of_ne hne _ _).trans ha

/-- Nothing happens while no datagram is for a running party. -/
theorem terminal_of_parties_none (react : H → P → Datagram A μ → Outcome A P μ) {net : Network A P μ}
    (h : ∀ d ∈ net.inFlight, net.parties d.dst = none) : Terminal (Deliver react) net := by
  rintro ⟨heap, d⟩ next hstep
  obtain ⟨rest, p, hperm, hp, -⟩ := hstep.elim
  rw [h d (hperm.symm.subset List.mem_cons_self)] at hp
  cases hp

/-- What follows when a single datagram is in flight. -/
theorem inevitably_of_single [Nonempty H] {react : H → P → Datagram A μ → Outcome A P μ}
    {net : Network A P μ} {d : Datagram A μ} {p : P} (hflight : net.inFlight = [d])
    (hp : net.parties d.dst = some p) {goal : Network A P μ → Prop}
    (hnext : ∀ h, Inevitably (Deliver react) goal (net.after d [] (react h p d))) :
    Inevitably (Deliver react) goal net := by
  refine .next ?_ ?_
  · obtain ⟨h⟩ := ‹Nonempty H›
    obtain ⟨next, hstep⟩ := Deliver.of_mem react h (hflight ▸ List.mem_singleton_self d) hp
    exact ⟨_, next, hstep⟩
  · rintro ⟨h, d'⟩ next hstep
    obtain ⟨rest, q, hperm, hq, rfl⟩ := hstep.elim
    rw [hflight] at hperm
    obtain ⟨rfl, rfl⟩ : d' = d ∧ rest = [] := by
      simpa using List.perm_singleton.mp hperm.symm
    rw [hp] at hq
    cases hq
    exact hnext h

/-- A network with other states and payloads. -/
def Network.map (state : A → P → Q) (enc : μ → ν) (net : Network A P μ) : Network A Q ν where
  parties a := (net.parties a).map (state a)
  inFlight := net.inFlight.map (Datagram.map enc)

variable {react : H → P → Datagram A μ → Outcome A P μ}
  {react' : K → Q → Datagram A ν → Outcome A Q ν} {state : A → P → Q} {enc : μ → ν}

theorem Network.map_after (net : Network A P μ) (d : Datagram A μ) (rest : List (Datagram A μ))
    (outcome : Outcome A P μ) :
    (net.after d rest outcome).map state enc =
      (net.map state enc).after (d.map enc) (rest.map (Datagram.map enc))
        (outcome.map (state d.dst) enc) := by
  cases outcome with
  | ended =>
      simp only [after, map, Outcome.map, Datagram.map]
      congr 1
      funext a
      by_cases ha : a = d.dst
      · subst ha
        simp
      · simp [ha]
  | unread => rfl
  | handled party sends =>
      simp only [after, map, Outcome.map, Datagram.map, List.map_append]
      congr 1
      funext a
      by_cases ha : a = d.dst
      · subst ha
        simp
      · simp [ha]

/-- Deliveries among mapped states are mapped deliveries. -/
theorem Deliver.of_map (hreact : ∀ k p d, ∃ h,
      react' k (state d.dst p) (d.map enc) = (react h p d).map (state d.dst) enc)
    {net : Network A P μ} {k : K} {d' : Datagram A ν} {net' : Network A Q ν}
    (h : Deliver react' (net.map state enc) (k, d') net') :
    ∃ h d next, Deliver react net (h, d) next ∧ d' = d.map enc ∧ net' = next.map state enc := by
  obtain ⟨-, hflight, hp⟩ := h
  rename_i before after q
  obtain ⟨before, rest, hnet, rfl, hrest⟩ := List.map_eq_append_iff.mp hflight
  obtain ⟨d, after, rfl, rfl, rfl⟩ := List.map_eq_cons_iff.mp hrest
  obtain ⟨p, hparty, rfl⟩ := Option.map_eq_some_iff.mp hp
  obtain ⟨h, heq⟩ := hreact k p d
  refine ⟨h, d, _, .mk h hnet hparty, rfl, ?_⟩
  rw [Network.map_after, ← heq, List.map_append]
  rfl

/-- Deliveries are deliveries among mapped states. -/
theorem Deliver.map (state : A → P → Q) (enc : μ → ν) (hreact : ∀ h p d, ∃ k,
      react' k (state d.dst p) (d.map enc) = (react h p d).map (state d.dst) enc)
    {net next : Network A P μ} {h : H} {d : Datagram A μ} (hstep : Deliver react net (h, d) next) :
    ∃ k, Deliver react' (net.map state enc) (k, d.map enc) (next.map state enc) := by
  obtain ⟨-, hflight, hp⟩ := hstep
  rename_i before after p
  obtain ⟨k, heq⟩ := hreact h p d
  refine ⟨k, ?_⟩
  rw [Network.map_after, ← heq, List.map_append]
  refine .mk k ?_ ?_
  · change net.inFlight.map _ = _
    rw [hflight, List.map_append, List.map_cons]
  · change (net.parties d.dst).map _ = _
    rw [hp]
    rfl

end Steps

end ComputerNetworking.Datagrams
