import ComputerNetworking.CJson

/-! What the JSON parser takes from a text, and how deep its recursion goes (`cJSON.c`). -/

namespace ComputerNetworking.CJson

open Dht

/-- A parser takes at least one character. -/
def Shortens {α : Type} (parser : Bytes → Option (α × Bytes)) : Prop :=
  ∀ value item rest, parser value = some (item, rest) → rest.length < value.length

/-! ### What is taken -/

theorem skip_length (text : Bytes) : (skip text).length ≤ text.length := (List.dropWhile_sublist _).length_le

theorem dropDigits_length (num : Bytes) : (dropDigits num).length ≤ num.length := (List.dropWhile_sublist _).length_le

theorem dropOne_length (c : UInt8) (num : Bytes) : (dropOne c num).length ≤ num.length := by
  unfold dropOne
  split_ifs <;> simp

theorem dropWhole_length (num : Bytes) : (dropWhole num).length ≤ num.length := by
  cases num with
  | nil => exact le_rfl
  | cons c rest =>
      unfold dropWhole
      dsimp only
      split_ifs
      · exact dropDigits_length _
      · exact le_rfl

theorem dropFraction_length (num : Bytes) : (dropFraction num).length ≤ num.length := by
  unfold dropFraction
  split
  · next c d rest =>
      have hdigits := dropDigits_length (d :: rest)
      split_ifs
      · exact hdigits.trans (Nat.le_succ _)
      · exact le_rfl
  · exact le_rfl

theorem dropExponent_length (num : Bytes) : (dropExponent num).length ≤ num.length := by
  cases num with
  | nil => exact le_rfl
  | cons c rest =>
      unfold dropExponent
      dsimp only
      have hsign : (dropSign rest).length ≤ rest.length := by
        unfold dropSign
        split_ifs
        · simp
        · exact dropOne_length minus rest
      split_ifs
      · exact ((dropDigits_length _).trans hsign).trans (Nat.le_succ _)
      · exact le_rfl

theorem numberEnd_length {c : UInt8} (hc : c = minus ∨ isDigit c) (rest : Bytes) :
    (numberEnd (c :: rest)).length < (c :: rest).length := by
  have hlater : ∀ num : Bytes, (dropExponent (dropFraction num)).length ≤ num.length :=
    fun num => (dropExponent_length _).trans (dropFraction_length num)
  have htail := Nat.lt_succ_self rest.length
  unfold numberEnd
  by_cases hsign : c = minus
  · have hdrop : dropOne minus (c :: rest) = rest := by simp [dropOne, hsign]
    rw [hdrop]
    exact ((hlater _).trans ((dropWhole_length _).trans (dropOne_length 48 rest))).trans_lt htail
  · have hdrop : dropOne minus (c :: rest) = c :: rest := by simp [dropOne, hsign]
    rw [hdrop]
    by_cases hzero : c = 48
    · have hdrop' : dropOne 48 (c :: rest) = rest := by simp [dropOne, hzero]
      rw [hdrop']
      exact ((hlater _).trans (dropWhole_length rest)).trans_lt htail
    · have hdrop' : dropOne 48 (c :: rest) = c :: rest := by simp [dropOne, hzero]
      have hdigit : isDigit c = true := hc.resolve_left hsign
      have hwhole : dropWhole (c :: rest) = dropDigits rest := by
        have hrange : 49 ≤ c ∧ c ≤ 57 := by
          have hne : c.toNat ≠ 48 := fun heq => hzero (UInt8.toNat_inj.mp heq)
          simp only [isDigit, decide_eq_true_eq, UInt8.le_iff_toNat_le, UInt8.reduceToNat] at hdigit ⊢
          omega
        rw [dropWhole, if_pos hrange, dropDigits, List.dropWhile_cons_of_pos hdigit, dropDigits]
      rw [hdrop', hwhole]
      exact ((hlater _).trans (dropDigits_length rest)).trans_lt htail

theorem shortens_parseString : Shortens parseString := by
  intro value str rest h
  cases value with
  | nil => cases h
  | cons c body =>
      unfold parseString at h
      dsimp only at h
      split_ifs at h
      split at h
      · cases h
      · next literal rest' hscan =>
          split at h
          · cases h
          · obtain ⟨-, rfl⟩ := Prod.mk.inj (Option.some.inj h)
            have hbody := congrArg List.length (scan_spec hscan).1
            rw [List.length_append] at hbody
            rw [List.length_cons]
            split_ifs
            · rw [List.length_tail]
              omega
            · omega

theorem shortens_parseEnclosed {α : Type} {opening closing : UInt8} {nil : α} {wrap : α → Json Bytes}
    {loop : Bytes → Option (α × Bytes)} (h : Shortens loop) :
    Shortens (parseEnclosed opening closing nil wrap loop) := by
  intro value item rest hparse
  cases value with
  | nil => cases hparse
  | cons c text =>
      have hskip := skip_length text
      unfold parseEnclosed at hparse
      dsimp only at hparse
      split_ifs at hparse
      · obtain ⟨-, rfl⟩ := Prod.mk.inj (Option.some.inj hparse)
        rw [List.length_tail, List.length_cons]
        omega
      · obtain ⟨⟨items, rest'⟩, hitems, heq⟩ := Option.map_eq_some_iff.mp hparse
        obtain rfl : rest' = rest := congrArg Prod.snd heq
        have hshort := h _ _ _ hitems
        rw [List.length_cons]
        omega

section Step

variable {fuel : Nat}

theorem shortens_parseValue_step (helements : Shortens (parseElements fuel)) (hmembers : Shortens (parseMembers fuel)) :
    Shortens (parseValue (fuel + 1)) := by
  intro value item rest hparse
  have hprefix : ∀ {word : Bytes} {n : Nat}, value.take n = word → word ≠ [] →
      (value.drop n).length < value.length := by
    intro word n htake hword
    have hlen := congrArg List.length htake
    have hpos := List.length_pos_iff.mpr hword
    rw [List.length_take] at hlen
    rw [List.length_drop]
    omega
  rw [parseValue.eq_def] at hparse
  dsimp only at hparse
  split_ifs at hparse with hnull hfalse htrue
  · obtain ⟨-, rfl⟩ := Prod.mk.inj (Option.some.inj hparse)
    exact hprefix hnull (by simp)
  · obtain ⟨-, rfl⟩ := Prod.mk.inj (Option.some.inj hparse)
    exact hprefix hfalse (by simp)
  · obtain ⟨-, rfl⟩ := Prod.mk.inj (Option.some.inj hparse)
    exact hprefix htrue (by simp)
  · cases value with
    | nil => cases hparse
    | cons c text =>
        dsimp only at hparse
        split_ifs at hparse with hquote hnumber harray hobject
        · obtain ⟨⟨str, rest'⟩, hstr, heq⟩ := Option.map_eq_some_iff.mp hparse
          obtain rfl : rest' = rest := congrArg Prod.snd heq
          exact shortens_parseString _ _ _ hstr
        · obtain ⟨-, rfl⟩ := Prod.mk.inj (Option.some.inj hparse)
          exact numberEnd_length hnumber text
        · exact shortens_parseEnclosed helements _ _ _ hparse
        · exact shortens_parseEnclosed hmembers _ _ _ hparse

theorem shortens_parseElements_step (hvalue : Shortens (parseValue fuel)) (helements : Shortens (parseElements fuel)) :
    Shortens (parseElements (fuel + 1)) := by
  intro value items rest hparse
  rw [parseElements] at hparse
  obtain ⟨⟨item, text⟩, hitem, hparse⟩ := Option.bind_eq_some_iff.mp hparse
  have hshort := hvalue _ _ _ hitem
  have hskip := skip_length value
  have hskip' := skip_length text
  dsimp only at hparse
  cases htext : skip text with
  | nil =>
      rw [htext] at hparse
      cases hparse
  | cons c more =>
      rw [htext] at hparse hskip'
      rw [List.length_cons] at hskip'
      dsimp only at hparse
      split_ifs at hparse
      · obtain ⟨⟨next, rest'⟩, hnext, heq⟩ := Option.map_eq_some_iff.mp hparse
        obtain rfl : rest' = rest := congrArg Prod.snd heq
        have hshort' := helements _ _ _ hnext
        omega
      · obtain ⟨-, rfl⟩ := Prod.mk.inj (Option.some.inj hparse)
        omega

theorem shortens_parseMembers_step (hvalue : Shortens (parseValue fuel)) (hmembers : Shortens (parseMembers fuel)) :
    Shortens (parseMembers (fuel + 1)) := by
  intro value items rest hparse
  rw [parseMembers] at hparse
  obtain ⟨⟨key, text⟩, hkey, hparse⟩ := Option.bind_eq_some_iff.mp hparse
  have hshort := shortens_parseString _ _ _ hkey
  dsimp only at hparse
  split_ifs at hparse
  obtain ⟨⟨item, text'⟩, hitem, hparse⟩ := Option.bind_eq_some_iff.mp hparse
  have hshort' := hvalue _ _ _ hitem
  have hskip := skip_length value
  have hskip' := skip_length text
  have hskip'' := skip_length (skip text).tail
  have hskip''' := skip_length text'
  rw [List.length_tail] at hskip''
  dsimp only at hparse
  cases htext : skip text' with
  | nil =>
      rw [htext] at hparse
      cases hparse
  | cons c more =>
      rw [htext] at hparse hskip'''
      rw [List.length_cons] at hskip'''
      dsimp only at hparse
      split_ifs at hparse
      · obtain ⟨⟨next, rest'⟩, hnext, heq⟩ := Option.map_eq_some_iff.mp hparse
        obtain rfl : rest' = rest := congrArg Prod.snd heq
        have hshort'' := hmembers _ _ _ hnext
        omega
      · obtain ⟨-, rfl⟩ := Prod.mk.inj (Option.some.inj hparse)
        omega

end Step

theorem shortens (fuel : Nat) :
    Shortens (parseValue fuel) ∧ Shortens (parseElements fuel) ∧ Shortens (parseMembers fuel) := by
  induction fuel with
  | zero => exact ⟨fun _ _ _ => nofun, fun _ _ _ => nofun, fun _ _ _ => nofun⟩
  | succ fuel ih =>
      obtain ⟨hvalue, helements, hmembers⟩ := ih
      exact ⟨shortens_parseValue_step helements hmembers, shortens_parseElements_step hvalue helements,
        shortens_parseMembers_step hvalue hmembers⟩

/-! ### The fuel is enough -/

/-- Two parsers are the same on texts up to a length. -/
def SameUpTo {α : Type} (n : Nat) (parser parser' : Bytes → Option α) : Prop :=
  ∀ value, value.length ≤ n → parser value = parser' value

section Same

variable {n fuel fuel' : Nat}

theorem sameUpTo_parseValue (helements : ∀ m < n, SameUpTo m (parseElements fuel) (parseElements fuel'))
    (hmembers : ∀ m < n, SameUpTo m (parseMembers fuel) (parseMembers fuel')) :
    SameUpTo n (parseValue (fuel + 1)) (parseValue (fuel' + 1)) := by
  intro value hlen
  rw [parseValue.eq_def, parseValue.eq_def]
  cases value with
  | nil => rfl
  | cons c text =>
      rw [List.length_cons] at hlen
      have harray : parseArray (parseElements fuel) (c :: text) = parseArray (parseElements fuel') (c :: text) := by
        rw [parseArray, parseEnclosed, helements _ hlen (skip text) (skip_length text), parseArray, parseEnclosed]
      have hobject : parseObject (parseMembers fuel) (c :: text) = parseObject (parseMembers fuel') (c :: text) := by
        rw [parseObject, parseEnclosed, hmembers _ hlen (skip text) (skip_length text), parseObject, parseEnclosed]
      dsimp only
      rw [harray, hobject]

theorem sameUpTo_parseElements (hvalue : SameUpTo n (parseValue fuel) (parseValue fuel'))
    (helements : ∀ m < n, SameUpTo m (parseElements fuel) (parseElements fuel')) :
    SameUpTo n (parseElements (fuel + 1)) (parseElements (fuel' + 1)) := by
  intro value hlen
  have hskip := skip_length value
  rw [parseElements, parseElements, hvalue _ (hskip.trans hlen)]
  refine Option.bind_congr ?_
  intro ⟨item, text⟩ hitem
  have hshort := (shortens fuel').1 _ _ _ hitem
  have hskip' := skip_length text
  dsimp only
  cases htext : skip text with
  | nil => rfl
  | cons c more =>
      rw [htext, List.length_cons] at hskip'
      dsimp only
      rw [helements more.length (by omega) more le_rfl]

theorem sameUpTo_parseMembers (hvalue : SameUpTo n (parseValue fuel) (parseValue fuel'))
    (hmembers : ∀ m < n, SameUpTo m (parseMembers fuel) (parseMembers fuel')) :
    SameUpTo n (parseMembers (fuel + 1)) (parseMembers (fuel' + 1)) := by
  intro value hlen
  rw [parseMembers, parseMembers]
  refine Option.bind_congr ?_
  intro ⟨key, text⟩ hkey
  have hshort := shortens_parseString _ _ _ hkey
  have hskip := skip_length value
  have hskip' := skip_length text
  have hskip'' := skip_length (skip text).tail
  rw [List.length_tail] at hskip''
  dsimp only
  rw [hvalue (skip (skip text).tail) (by omega)]
  refine congrArg (ite _ _) (Option.bind_congr ?_)
  intro ⟨item, text'⟩ hitem
  have hshort' := (shortens fuel').1 _ _ _ hitem
  have hskip''' := skip_length text'
  dsimp only
  cases htext : skip text' with
  | nil => rfl
  | cons c more =>
      rw [htext, List.length_cons] at hskip'''
      dsimp only
      rw [hmembers more.length (by omega) more le_rfl]

end Same

theorem sameUpTo (n : Nat) : ∀ fuel fuel' : Nat, 2 * n + 1 ≤ fuel → 2 * n + 1 ≤ fuel' →
    SameUpTo n (parseValue fuel) (parseValue fuel') ∧
    SameUpTo n (parseElements (fuel + 1)) (parseElements (fuel' + 1)) ∧
    SameUpTo n (parseMembers (fuel + 1)) (parseMembers (fuel' + 1)) := by
  induction n using Nat.strong_induction_on with
  | h n ih =>
      intro fuel fuel' hfuel hfuel'
      obtain ⟨f, rfl⟩ : ∃ f, fuel = f + 1 := ⟨fuel - 1, by omega⟩
      obtain ⟨g, rfl⟩ : ∃ g, fuel' = g + 1 := ⟨fuel' - 1, by omega⟩
      have hearlier : ∀ m < n, SameUpTo m (parseElements f) (parseElements g) ∧
          SameUpTo m (parseMembers f) (parseMembers g) := by
        intro m hm
        obtain ⟨f', rfl⟩ : ∃ f', f = f' + 1 := ⟨f - 1, by omega⟩
        obtain ⟨g', rfl⟩ : ∃ g', g = g' + 1 := ⟨g - 1, by omega⟩
        exact (ih m hm f' g' (by omega) (by omega)).2
      have hnext : ∀ m < n, SameUpTo m (parseElements (f + 1)) (parseElements (g + 1)) ∧
          SameUpTo m (parseMembers (f + 1)) (parseMembers (g + 1)) :=
        fun m hm => (ih m hm f g (by omega) (by omega)).2
      have hvalue : SameUpTo n (parseValue (f + 1)) (parseValue (g + 1)) :=
        sameUpTo_parseValue (fun m hm => (hearlier m hm).1) (fun m hm => (hearlier m hm).2)
      exact ⟨hvalue, sameUpTo_parseElements hvalue fun m hm => (hnext m hm).1,
        sameUpTo_parseMembers hvalue fun m hm => (hnext m hm).2⟩

/-- More fuel does not change what is parsed. -/
theorem parseValue_fuel {fuel : Nat} {value : Bytes} (h : parseFuel value ≤ fuel) :
    parseValue fuel value = parseValue (parseFuel value) value :=
  (sameUpTo value.length fuel (parseFuel value) h le_rfl).1 value le_rfl

end ComputerNetworking.CJson
