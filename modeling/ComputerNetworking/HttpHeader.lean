import ComputerNetworking.Transition
import ComputerNetworking.PatternScan
import ComputerNetworking.FilmClient

/-! The HTTP client (`TCP_IP_and_Drgramms/ex7.c`) up to the end of the header.

The client looks at more and more of the response and searches the end of the header in what it sees. The
position of the search is kept from one look to the next. -/

namespace ComputerNetworking.Http

open Dht PatternScan
open FilmClient (writeAt)

/-- `MAX_MSG_LEN`. -/
def maxMsgLen : Nat := 512000

/-- The size of `buffer`. -/
def bufferLen : Nat := maxMsgLen + 1

/-- `PEEK_LEN`. -/
def peekLen : Nat := 128

def crlf : Bytes := [13, 10]

/-- The end of the header. -/
def headerEnd : Bytes := crlf ++ crlf

/-- Where the loop that searches the end of the header is. -/
inductive HeaderScan where
  | running (buffer : Nat → UInt8) (peaked : Nat)
  | found (peaked : Nat)
  | outOfBounds

/-- One turn of the loop; `available` is how much of the response has arrived. -/
def headerTurn (response : Bytes) (available : Nat) (buffer : Nat → UInt8) (peaked : Nat) : HeaderScan :=
  let data := response.take (min available (peekLen + peaked))
  let status := data.length
  if status ≤ bufferLen then
    let buffer := writeAt buffer 0 data
    match scan bufferLen buffer headerEnd (status + 1 - peaked) peaked with
    | none => .outOfBounds
    | some peaked =>
        match matchAt bufferLen buffer headerEnd peaked with
        | none => .outOfBounds
        | some true => .found (peaked + 4)
        | some false => .running buffer peaked
  else .outOfBounds

/-- The loop after a number of turns. -/
def headerLoop (response : Bytes) (available : Nat → Nat) : Nat → HeaderScan
  | 0 => .running zeroed 0
  | k + 1 =>
      match headerLoop response available k with
      | .running buffer peaked => headerTurn response (available k) buffer peaked
      | .found peaked => .found peaked
      | .outOfBounds => .outOfBounds

/-- The loop ends with this value of `peaked`. -/
def EndsAt (response : Bytes) (available : Nat → Nat) (peaked : Nat) : Prop :=
  ∃ k, headerLoop response available k = .found peaked

/-- What `recv` returns in the turns of a search that goes on: a prefix of the response of at most the
requested length, that grows until the end of the header at `t` is in it. The request follows the
position of the search, which is behind what has been seen. -/
structure Peeks (response : Bytes) (t : Nat) (peeks : Nat → Nat) : Prop where
  first : peeks 0 ≤ peekLen
  next : ∀ k, peeks (k + 1) ≤ peekLen + (peeks k + 1)
  le_length : ∀ k, peeks k ≤ response.length
  mono : Monotone peeks
  reaches : ∃ k, t + 4 ≤ peeks k

section Turn

variable {response : Bytes} {t available peaked s : Nat} {buffer : Nat → UInt8}

/-- The buffer holds the first bytes of the response, and zeros behind them. -/
def Shows (buffer : Nat → UInt8) (response : Bytes) (s : Nat) : Prop :=
  ∀ i, buffer i = (response.take s).getD i 0

theorem shows_zeroed : Shows zeroed response 0 := fun i => by simp [zeroed]

theorem Shows.write (h : Shows buffer response s) {s' : Nat} (hle : s ≤ s') :
    Shows (writeAt buffer 0 (response.take s')) response s' := by
  intro i
  unfold writeAt
  rw [Nat.zero_add, Nat.sub_zero]
  split
  · rfl
  · rename_i hlong
    have hge : (response.take s').length ≤ i := by omega
    have hge' : (response.take s).length ≤ i := by
      rw [List.length_take] at hge ⊢
      omega
    rw [h i, List.getD_eq_default _ _ hge, List.getD_eq_default _ _ hge']

/-- The buffer has the end of the header where the response has it, as far as it is seen. -/
theorem Shows.match_eq (h : Shows buffer response s) {i : Nat} (hsize : i + 4 ≤ bufferLen) :
    matchAt bufferLen buffer headerEnd i =
      some (decide (i + 4 ≤ s ∧ OccursAt headerEnd response i)) := by
  rw [matchAt_eq h (by decide) hsize]
  exact congrArg some (decide_eq_decide.mpr (occursAt_take_iff (List.cons_ne_nil _ _)))

/-- What one turn does when `recv` returns what is asked to be there. -/
theorem headerTurn_eq (havailable : available ≤ peekLen + peaked) (hlength : available ≤ response.length) :
    headerTurn response available buffer peaked =
      if available ≤ bufferLen then
        match scan bufferLen (writeAt buffer 0 (response.take available)) headerEnd
          (available + 1 - peaked) peaked with
        | none => .outOfBounds
        | some peaked =>
            match matchAt bufferLen (writeAt buffer 0 (response.take available)) headerEnd peaked with
            | none => .outOfBounds
            | some true => .found (peaked + 4)
            | some false => .running (writeAt buffer 0 (response.take available)) peaked
      else .outOfBounds := by
  have hdata : (response.take available).length = available := List.length_take_of_le hlength
  unfold headerTurn
  rw [Nat.min_eq_left havailable]
  dsimp only
  rw [hdata]

/-- A turn that ends the loop has found the end of a header, from the position of the search on. -/
theorem headerTurn_found {v : Nat} (h : headerTurn response available buffer peaked = .found v) :
    peaked + 4 ≤ v ∧ v ≤ bufferLen := by
  unfold headerTurn at h
  dsimp only at h
  split at h
  · split at h
    · cases h
    · rename_i hscan
      split at h
      · cases h
      · rename_i hmatch
        cases h
        exact ⟨Nat.add_le_add_right (le_of_scan hscan) 4, le_size_of_matchAt (List.cons_ne_nil _ _) hmatch⟩
      · cases h
  · cases h

theorem headerTurn_running {buffer' : Nat → UInt8} {peaked' : Nat}
    (h : headerTurn response available buffer peaked = .running buffer' peaked') : peaked ≤ peaked' := by
  unfold headerTurn at h
  dsimp only at h
  split at h
  · split at h
    · cases h
    · rename_i hscan
      split at h
      · cases h
      · cases h
      · cases h
        exact le_of_scan hscan
  · cases h

/-! A look ends before the end of the header, behind it, or inside it. -/

section Look

variable (hshows : Shows buffer response s) (hle : s ≤ available) (hfirst : FirstAt headerEnd response t)
  (havailable : available ≤ peekLen + peaked) (hlength : available ≤ response.length)

include hshows hle hfirst havailable hlength

theorem headerTurn_before (hbefore : available < t) (hsize : t + 4 ≤ bufferLen)
    (hpeaked : peaked ≤ available + 1) :
    headerTurn response available buffer peaked =
      .running (writeAt buffer 0 (response.take available)) (available + 1) := by
  have hmiss : ∀ j, j ≤ available + 1 →
      matchAt bufferLen (writeAt buffer 0 (response.take available)) headerEnd j = some false := by
    intro j hj
    rw [(hshows.write hle).match_eq (by omega)]
    refine congrArg some (decide_eq_false fun hseen => ?_)
    exact hfirst.first j (by omega) hseen.2
  have hscan : scan bufferLen (writeAt buffer 0 (response.take available)) headerEnd
      (available + 1 - peaked) peaked = some (available + 1) :=
    (scan_missed fun j _ hj => hmiss j (by omega)).trans (congrArg some (by omega))
  rw [headerTurn_eq havailable hlength, if_pos (by omega), hscan]
  dsimp only
  rw [hmiss _ le_rfl]

theorem headerTurn_behind (hbehind : t + 4 ≤ available) (hsize : available ≤ bufferLen)
    (hpeaked : peaked ≤ t) : headerTurn response available buffer peaked = .found (t + 4) := by
  have hmatch : matchAt bufferLen (writeAt buffer 0 (response.take available)) headerEnd t = some true := by
    rw [(hshows.write hle).match_eq (by omega)]
    exact congrArg some (decide_eq_true ⟨hbehind, hfirst.occurs⟩)
  have hscan : scan bufferLen (writeAt buffer 0 (response.take available)) headerEnd
      (available + 1 - peaked) peaked = some t := by
    refine scan_found hpeaked (by omega) (fun j _ hj => ?_) hmatch
    rw [(hshows.write hle).match_eq (by omega)]
    exact congrArg some (decide_eq_false fun hseen => hfirst.first j hj hseen.2)
  rw [headerTurn_eq havailable hlength, if_pos hsize, hscan]
  dsimp only
  rw [hmatch]

/-- The search goes past an end of the header of which only a part is seen. -/
theorem headerTurn_inside (hge : t ≤ available) (hlt : available < t + 4) (hpeaked : peaked ≤ t) :
    headerTurn response available buffer peaked = .outOfBounds ∨
      ∃ buffer' peaked', headerTurn response available buffer peaked = .running buffer' peaked' ∧
        t < peaked' := by
  have hnone : ∀ j, matchAt bufferLen (writeAt buffer 0 (response.take available)) headerEnd j ≠
      some true := by
    intro j hmatch
    have hsize : j + 4 ≤ bufferLen := le_size_of_matchAt (List.cons_ne_nil _ _) hmatch
    rw [(hshows.write hle).match_eq hsize, Option.some_inj, decide_eq_true_eq] at hmatch
    exact hfirst.first j (by omega) hmatch.2
  rw [headerTurn_eq havailable hlength]
  split
  · split
    · exact .inl rfl
    · rename_i p hscan
      have hp := (stop_of_scan hscan).resolve_left (hnone p)
      split
      · exact .inl rfl
      · rename_i hmatch
        exact absurd hmatch (hnone p)
      · exact .inr ⟨_, p, rfl, by omega⟩
  · exact .inl rfl

end Look

end Turn

/-! ### The loop -/

section Loop

variable {response : Bytes} {t : Nat} {peeks : Nat → Nat}

theorem headerLoop_outOfBounds {k : Nat} (h : headerLoop response peeks k = .outOfBounds) (j : Nat) :
    headerLoop response peeks (k + j) = .outOfBounds := by
  apply Transition.stays (fun i hi => ?_) h
  rw [headerLoop, hi]

theorem headerLoop_found {k v : Nat} (h : headerLoop response peeks k = .found v) (j : Nat) :
    headerLoop response peeks (k + j) = .found v := by
  apply Transition.stays (fun i hi => ?_) h
  rw [headerLoop, hi]

/-- The loop ends behind the position of its search. -/
theorem headerLoop_later {k j v peaked : Nat} {buffer : Nat → UInt8}
    (hrunning : headerLoop response peeks k = .running buffer peaked)
    (hfound : headerLoop response peeks (k + j) = .found v) : peaked + 4 ≤ v ∧ v ≤ bufferLen := by
  induction j generalizing k buffer peaked with
  | zero =>
      rw [Nat.add_zero, hrunning] at hfound
      cases hfound
  | succ j ih =>
      have hnext : headerLoop response peeks (k + 1) = headerTurn response (peeks k) buffer peaked := by
        rw [headerLoop, hrunning]
      rw [Nat.add_succ, ← Nat.succ_add] at hfound
      cases hturn : headerTurn response (peeks k) buffer peaked with
      | running buffer' peaked' =>
          have hlater := ih (hnext.trans hturn) hfound
          have hle := headerTurn_running hturn
          omega
      | found v' =>
          have hsame := (headerLoop_found (hnext.trans hturn) j).symm.trans hfound
          cases hsame
          exact headerTurn_found hturn
      | outOfBounds =>
          have hsame := (headerLoop_outOfBounds (hnext.trans hturn) j).symm.trans hfound
          cases hsame

/-- While nothing of the end of the header is seen, the search stops just behind what is seen. -/
theorem headerLoop_before (hpeeks : Peeks response t peeks) (hfirst : FirstAt headerEnd response t)
    (hsize : t + 4 ≤ bufferLen) (k : Nat) (hbefore : ∀ j, j < k → peeks j < t) :
    ∃ buffer s peaked, headerLoop response peeks k = .running buffer peaked ∧ Shows buffer response s ∧
      s ≤ peeks k ∧ peaked ≤ t ∧ peaked ≤ peeks k + 1 ∧ peeks k ≤ peekLen + peaked := by
  induction k with
  | zero =>
      exact ⟨zeroed, 0, 0, rfl, shows_zeroed, Nat.zero_le _, Nat.zero_le _, Nat.zero_le _, hpeeks.first⟩
  | succ k ih =>
      obtain ⟨buffer, s, peaked, hrunning, hshows, hle, -, hpeaked, hrequest⟩ :=
        ih fun j hj => hbefore j (hj.trans (Nat.lt_succ_self k))
      have hlast : peeks k < t := hbefore k (Nat.lt_succ_self k)
      have hgrows : peeks k ≤ peeks (k + 1) := hpeeks.mono (Nat.le_succ k)
      refine ⟨_, peeks k, peeks k + 1, ?_, hshows.write hle, hgrows, hlast, by omega, hpeeks.next k⟩
      rw [headerLoop, hrunning]
      exact headerTurn_before hshows hle hfirst hrequest (hpeeks.le_length k) hlast hsize hpeaked

/-- The loop goes up to the first look that is not before the end of the header. -/
theorem exists_first_look (hpeeks : Peeks response t peeks) :
    ∃ k, t ≤ peeks k ∧ ∀ j, j < k → peeks j < t := by
  obtain ⟨k, hreaches⟩ := hpeeks.reaches
  have hlook : ∃ k, t ≤ peeks k := ⟨k, by omega⟩
  exact ⟨Nat.find hlook, Nat.find_spec hlook, fun j hj => not_le.mp (Nat.find_min hlook hj)⟩

/-- A loop that ends just behind the first end of a header has never had a part of it only. -/
theorem EndsAt.clear (hfirst : FirstAt headerEnd response t) (hpeeks : Peeks response t peeks)
    (h : EndsAt response peeks (t + 4)) :
    (∃ k, t + 4 ≤ peeks k ∧ peeks k ≤ bufferLen) ∧ ∀ k, ¬(t ≤ peeks k ∧ peeks k < t + 4) := by
  obtain ⟨k, hge, hbefore⟩ := exists_first_look hpeeks
  obtain ⟨n, hfound⟩ := h
  have hstart : headerLoop response peeks 0 = .running zeroed 0 := rfl
  have hsize : t + 4 ≤ bufferLen := (headerLoop_later hstart ((Nat.zero_add n).symm ▸ hfound)).2
  obtain ⟨buffer, s, peaked, hrunning, hshows, hle, hpeaked, -, hrequest⟩ :=
    headerLoop_before hpeeks hfirst hsize k hbefore
  have hturn : headerLoop response peeks (k + 1) = headerTurn response (peeks k) buffer peaked := by
    rw [headerLoop, hrunning]
  have hends : headerLoop response peeks (k + 1 + n) = .found (t + 4) :=
    Nat.add_comm n (k + 1) ▸ headerLoop_found hfound (k + 1)
  have hbehind : t + 4 ≤ peeks k := by
    by_contra hinside
    rcases headerTurn_inside hshows hle hfirst hrequest (hpeeks.le_length k) hge (not_le.mp hinside) hpeaked
      with hout | ⟨buffer', peaked', hpast, hlt⟩
    · have hstays := headerLoop_outOfBounds (hturn.trans hout) n
      cases hends.symm.trans hstays
    · have hlater := (headerLoop_later (hturn.trans hpast) hends).1
      omega
  have hfits : peeks k ≤ bufferLen := by
    by_contra hlong
    have hout : headerTurn response (peeks k) buffer peaked = .outOfBounds := by
      rw [headerTurn_eq hrequest (hpeeks.le_length k), if_neg hlong]
    have hstays := headerLoop_outOfBounds (hturn.trans hout) n
    cases hends.symm.trans hstays
  refine ⟨⟨k, hbehind, hfits⟩, fun j hinside => ?_⟩
  rcases Nat.lt_or_ge j k with hj | hj
  · have hlt := hbefore j hj
    omega
  · have hgrows := hpeeks.mono hj
    omega

theorem endsAt_of_clear (hfirst : FirstAt headerEnd response t) (hpeeks : Peeks response t peeks) {n : Nat}
    (hreaches : t + 4 ≤ peeks n) (hfits : peeks n ≤ bufferLen)
    (hclear : ∀ k, ¬(t ≤ peeks k ∧ peeks k < t + 4)) : EndsAt response peeks (t + 4) := by
  obtain ⟨k, hge, hbefore⟩ := exists_first_look hpeeks
  have hkn : k ≤ n := by
    by_contra hlt
    have := hbefore n (not_le.mp hlt)
    omega
  have hgrows : peeks k ≤ peeks n := hpeeks.mono hkn
  have hbehind : t + 4 ≤ peeks k := by
    by_contra hinside
    exact hclear k ⟨hge, not_le.mp hinside⟩
  obtain ⟨buffer, s, peaked, hrunning, hshows, hle, hpeaked, -, hrequest⟩ :=
    headerLoop_before hpeeks hfirst (hreaches.trans hfits) k hbefore
  refine ⟨k + 1, ?_⟩
  rw [headerLoop, hrunning]
  exact headerTurn_behind hshows hle hfirst hrequest (hpeeks.le_length k) hbehind (hgrows.trans hfits) hpeaked

/-- The loop ends just behind the first end of a header exactly if no look ends inside it, and a look that
has it fits into the buffer. -/
theorem ends_behind_header_iff (response : Bytes) (t : Nat) (peeks : Nat → Nat)
    (hfirst : FirstAt headerEnd response t) (hpeeks : Peeks response t peeks) :
    EndsAt response peeks (t + 4) ↔
      (∃ k, t + 4 ≤ peeks k ∧ peeks k ≤ bufferLen) ∧ ∀ k, ¬(t ≤ peeks k ∧ peeks k < t + 4) := by
  constructor
  · exact EndsAt.clear hfirst hpeeks
  · rintro ⟨⟨n, hreaches, hfits⟩, hclear⟩
    exact endsAt_of_clear hfirst hpeeks hreaches hfits hclear

theorem ends_behind_header_iff_whole :
    FirstAt headerEnd headerEnd 0 ∧
      (EndsAt headerEnd (fun _ => 4) (0 + 4) ↔
        (∃ k : Nat, 0 + 4 ≤ (fun _ => 4) k ∧ (fun _ => 4) k ≤ bufferLen) ∧
          ∀ k : Nat, ¬(0 ≤ (fun _ => 4) k ∧ (fun _ => 4) k < 0 + 4)) := by
  have hfirst : FirstAt headerEnd headerEnd 0 := ⟨by decide, fun i hi => absurd hi (Nat.not_lt_zero i)⟩
  have hpeeks : Peeks headerEnd 0 fun _ => 4 :=
    ⟨by decide, fun _ => by decide, fun _ => by decide, fun _ _ _ => le_rfl, 0, by decide⟩
  exact ⟨hfirst, ends_behind_header_iff headerEnd 0 (fun _ => 4) hfirst hpeeks⟩

/-- A look that has two of the four bytes: the search goes past them, and the loop does not end there. -/
theorem split_header_end_is_missed :
    ¬∀ (response : Bytes) (t : Nat) (peeks : Nat → Nat), FirstAt headerEnd response t →
      Peeks response t peeks → EndsAt response peeks (t + 4) := by
  intro hends
  have hfirst : FirstAt headerEnd headerEnd 0 := ⟨by decide, fun i hi => absurd hi (Nat.not_lt_zero i)⟩
  let peeks : Nat → Nat := fun k => if k = 0 then 2 else 4
  have hpeeks : Peeks headerEnd 0 peeks := by
    refine ⟨by decide, fun k => ?_, fun k => ?_, fun j k hjk => ?_, 1, by decide⟩
    · dsimp only [peeks, peekLen]
      split <;> split <;> omega
    · by_cases hk : k = 0 <;> simp [peeks, hk, headerEnd, crlf]
    · dsimp only [peeks]
      split <;> split <;> omega
  have hclear := (EndsAt.clear hfirst hpeeks (hends headerEnd 0 peeks hfirst hpeeks)).2
  exact hclear 0 ⟨by decide, by decide⟩

end Loop

end ComputerNetworking.Http
