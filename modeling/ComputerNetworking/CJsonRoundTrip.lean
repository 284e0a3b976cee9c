import ComputerNetworking.CJsonFuel
import Mathlib.Data.List.DropRight

/-! What the JSON library prints, it parses again (`cJSON.c`), and the memory that it takes for that is enough. -/

namespace ComputerNetworking.CJson

open Dht

/-! ### White space -/

theorem skip_stop {c : UInt8} {text : Bytes} (h : 32 < c) : skip (c :: text) = c :: text := by
  have hstop : ¬(c ≠ 0 ∧ c ≤ 32) := fun hspace => absurd hspace.2 (UInt8.not_le.mpr h)
  rw [skip, List.dropWhile_cons_of_neg (by simpa using hstop)]

theorem skip_space {c : UInt8} {text : Bytes} (h : c ≠ 0 ∧ c ≤ 32) : skip (c :: text) = skip text := by
  rw [skip, List.dropWhile_cons_of_pos (by simpa using h), skip]

theorem skip_tabs (n : Nat) (text : Bytes) : skip (tabs n ++ text) = skip text := by
  induction n with
  | zero => rfl
  | succ n ih =>
      have hcons : tabs (n + 1) ++ text = 9 :: (tabs n ++ text) := rfl
      rw [hcons, skip_space (by decide), ih]

/-- White space that is only written with `fmt`. -/
theorem skip_fmt {space : Bytes} (fmt : Bool) (hspace : ∀ text, skip (space ++ text) = skip text) (text : Bytes) :
    skip ((if fmt then space else []) ++ text) = skip text := by
  cases fmt
  · rfl
  · exact hspace text

theorem skip_newline (text : Bytes) : skip ([10] ++ text) = skip text := skip_space (by decide)

theorem skip_tab (text : Bytes) : skip ([9] ++ text) = skip text := skip_space (by decide)

theorem skip_blank (text : Bytes) : skip ([32] ++ text) = skip text := skip_space (by decide)

/-! ### Numerals -/

/-- A text that does not go on with a number. -/
def Stops (rest : Bytes) : Prop := ∀ c ∈ rest.head?, isDigit c = false ∧ c ∉ ([46, 101, 69, 43, 45] : Bytes)

theorem stops_cons {c : UInt8} (h : isDigit c = false ∧ c ∉ ([46, 101, 69, 43, 45] : Bytes)) (rest : Bytes) :
    Stops (c :: rest) := by
  intro d hd
  obtain rfl : c = d := by simpa using hd
  exact h

/-- A text that is read as a number to its end. -/
def IsNumeral (text : Bytes) : Prop := text.head?.any (fun c => c = minus ∨ isDigit c) ∧ numberEnd text = []

instance (text : Bytes) : Decidable (IsNumeral text) := inferInstanceAs (Decidable (_ ∧ _))

/-- What `print_number` writes: a numeral, or `null` for a number that is not finite. -/
def WritesNumber (text : Bytes) : Prop := IsNumeral text ∨ text = nullText

instance (text : Bytes) : Decidable (WritesNumber text) := inferInstanceAs (Decidable (_ ∨ _))

/-- What is parsed from the text of a number. -/
def reread {N : Type} (printNumber : N → Bytes) (value : N) : Json Bytes :=
  if printNumber value = nullText then .null else .number (printNumber value)

/-- A text of white space up to what stops a number also does. -/
theorem stops_of_skip {text rest : Bytes} {c : UInt8} (h : skip text = c :: rest) (hc : Stops (c :: rest)) :
    Stops text := by
  cases text with
  | nil => cases h
  | cons d text =>
      intro e he
      obtain rfl : d = e := by simpa using he
      by_cases hspace : d ≠ 0 ∧ d ≤ 32
      · have hall : ∀ n : Fin 33, isDigit (UInt8.ofNat n) = false ∧
            UInt8.ofNat n ∉ ([46, 101, 69, 43, 45] : Bytes) := by decide
        have hlt : d.toNat < 33 := Nat.lt_succ_of_le (UInt8.le_iff_toNat_le.mp hspace.2)
        simpa using hall ⟨d.toNat, hlt⟩
      · rw [skip, List.dropWhile_cons_of_neg (by simpa using hspace)] at h
        obtain ⟨rfl, -⟩ := List.cons.inj h
        exact hc d rfl

section Stops

variable {rest : Bytes} (h : Stops rest)

include h

theorem dropDigits_append (num : Bytes) : dropDigits (num ++ rest) = dropDigits num ++ rest := by
  induction num with
  | nil =>
      cases rest with
      | nil => rfl
      | cons c rest =>
          have hdigit := (h c rfl).1
          rw [List.nil_append, dropDigits, List.dropWhile_cons_of_neg (by simp [hdigit])]
          rfl
  | cons c num ih =>
      unfold dropDigits at ih ⊢
      by_cases hdigit : isDigit c = true
      · rw [List.cons_append, List.dropWhile_cons_of_pos hdigit, List.dropWhile_cons_of_pos hdigit, ih]
      · rw [List.cons_append, List.dropWhile_cons_of_neg hdigit, List.dropWhile_cons_of_neg hdigit, List.cons_append]

theorem dropOne_append {c : UInt8} (hc : c = minus ∨ isDigit c) (num : Bytes) :
    dropOne c (num ++ rest) = dropOne c num ++ rest := by
  cases num with
  | nil =>
      have hhead : rest.head? ≠ some c := by
        intro hhead
        obtain ⟨hdigit, hmem⟩ := h c hhead
        rcases hc with rfl | hc
        · simp at hmem
        · rw [hdigit] at hc
          cases hc
      rw [List.nil_append, dropOne, if_neg hhead]
      rfl
  | cons d num =>
      by_cases hhead : d = c
      · simp [dropOne, hhead]
      · simp [dropOne, hhead]

theorem dropSign_append (num : Bytes) : dropSign (num ++ rest) = dropSign num ++ rest := by
  have hminus := dropOne_append h (.inl rfl) num
  cases num with
  | nil =>
      have hhead : rest.head? ≠ some 43 := by
        intro hhead
        have hmem := (h 43 hhead).2
        simp at hmem
      rw [dropSign, List.nil_append, if_neg hhead]
      exact hminus
  | cons d num =>
      by_cases hhead : d = 43
      · simp [dropSign, hhead]
      · rw [dropSign, dropSign, if_neg (by simpa using hhead), if_neg (by simpa using hhead), hminus]

theorem dropWhole_append (num : Bytes) : dropWhole (num ++ rest) = dropWhole num ++ rest := by
  cases num with
  | nil =>
      cases rest with
      | nil => rfl
      | cons c rest =>
          have hdigit := (h c rfl).1
          have hrange : ¬(49 ≤ c ∧ c ≤ 57) := by
            intro hrange
            have hlow : (48 : UInt8) ≤ c := UInt8.le_trans (by decide : (48 : UInt8) ≤ 49) hrange.1
            simp [isDigit, hlow, hrange.2] at hdigit
          have hkeep : dropWhole (c :: rest) = c :: rest := by rw [dropWhole, if_neg hrange]
          exact hkeep
  | cons c num =>
      rw [List.cons_append, dropWhole, dropWhole]
      split_ifs
      · exact dropDigits_append h (c :: num)
      · rfl

theorem dropFraction_append (num : Bytes) : dropFraction (num ++ rest) = dropFraction num ++ rest := by
  match num with
  | [] =>
      match rest, h with
      | [], _ => rfl
      | [c], _ => rfl
      | c :: d :: rest, h =>
          have hpoint : c ≠ 46 := by
            rintro rfl
            have hmem := (h 46 rfl).2
            simp at hmem
          rw [List.nil_append, dropFraction, if_neg fun hboth => hpoint hboth.1]
          rfl
  | [c] =>
      match rest, h with
      | [], _ => rfl
      | d :: rest, h =>
          have hdigit := (h d rfl).1
          rw [List.cons_append, List.nil_append, dropFraction, if_neg fun hboth => by simp [hdigit] at hboth]
          rfl
  | c :: d :: num =>
      rw [List.cons_append, List.cons_append, dropFraction, dropFraction]
      split_ifs
      · exact dropDigits_append h (d :: num)
      · rfl

theorem dropExponent_append (num : Bytes) : dropExponent (num ++ rest) = dropExponent num ++ rest := by
  cases num with
  | nil =>
      cases rest with
      | nil => rfl
      | cons c rest =>
          have hmem := (h c rfl).2
          have hmark : ¬(c = 101 ∨ c = 69) := by
            intro hmark
            rcases hmark with rfl | rfl <;> simp at hmem
          have hkeep : dropExponent (c :: rest) = c :: rest := by rw [dropExponent, if_neg hmark]
          exact hkeep
  | cons c num =>
      rw [List.cons_append, dropExponent, dropExponent]
      split_ifs
      · rw [dropSign_append h, dropDigits_append h]
      · rfl

theorem numberEnd_append (num : Bytes) : numberEnd (num ++ rest) = numberEnd num ++ rest := by
  have hzero : isDigit 48 = true := by decide
  rw [numberEnd, dropOne_append h (.inl rfl), dropOne_append h (.inr hzero), dropWhole_append h,
    dropFraction_append h, dropExponent_append h, numberEnd]

theorem parseNumber_append {num : Bytes} (hnum : IsNumeral num) : parseNumber (num ++ rest) = (num, rest) := by
  have hend : numberEnd (num ++ rest) = rest := by rw [numberEnd_append h, hnum.2, List.nil_append]
  rw [parseNumber, hend, List.length_append, Nat.add_sub_cancel, List.take_left]

end Stops

/-! ### A value by its first character -/

section First

variable (fuel : Nat) (text : Bytes)

theorem parseValue_first {c : UInt8} (hc : c ∉ ([110, 102, 116] : Bytes)) : parseValue (fuel + 1) (c :: text) =
    if c = quote then (parseString (c :: text)).map fun (str, rest) => (.string str, rest)
    else if c = minus ∨ isDigit c then some (.number (parseNumber (c :: text)).1, (parseNumber (c :: text)).2)
    else if c = openBracket then parseArray (parseElements fuel) (c :: text)
    else if c = openBrace then parseObject (parseMembers fuel) (c :: text)
    else none := by
  have hletter : c ≠ 110 ∧ c ≠ 102 ∧ c ≠ 116 := by simpa using hc
  have hword : ∀ (d : UInt8) (word : Bytes) (n : Nat), c ≠ d → ¬(c :: text).take (n + 1) = d :: word :=
    fun d word n hne heq => hne (List.cons.inj heq).1
  rw [parseValue.eq_def]
  dsimp only
  rw [if_neg (hword _ _ _ hletter.1), if_neg (hword _ _ _ hletter.2.1), if_neg (hword _ _ _ hletter.2.2)]

theorem parseValue_quote : parseValue (fuel + 1) (quote :: text) =
    (parseString (quote :: text)).map fun (str, rest) => (.string str, rest) := by
  rw [parseValue_first fuel text (by decide), if_pos rfl]

theorem parseValue_number {c : UInt8} (hc : c = minus ∨ isDigit c) : parseValue (fuel + 1) (c :: text) =
    some (.number (parseNumber (c :: text)).1, (parseNumber (c :: text)).2) := by
  have hother : c ∉ ([110, 102, 116] : Bytes) ∧ c ≠ quote := by
    have hall : ∀ n : Fin 256, (UInt8.ofNat n = minus ∨ isDigit (UInt8.ofNat n)) →
        UInt8.ofNat n ∉ ([110, 102, 116] : Bytes) ∧ UInt8.ofNat n ≠ quote := by decide +kernel
    simpa using hall ⟨c.toNat, c.toNat_lt⟩ (by simpa using hc)
  rw [parseValue_first fuel text hother.1, if_neg hother.2, if_pos hc]

theorem parseValue_bracket :
    parseValue (fuel + 1) (openBracket :: text) = parseArray (parseElements fuel) (openBracket :: text) := by
  rw [parseValue_first fuel text (by decide), if_neg (by decide), if_neg (by decide), if_pos rfl]

theorem parseValue_brace :
    parseValue (fuel + 1) (openBrace :: text) = parseObject (parseMembers fuel) (openBrace :: text) := by
  rw [parseValue_first fuel text (by decide), if_neg (by decide), if_neg (by decide), if_neg (by decide), if_pos rfl]

theorem parseElements_skip : parseElements fuel (skip text) = parseElements fuel text := by
  have hskip : skip (skip text) = skip text := List.dropWhile_idempotent _ _
  cases fuel with
  | zero => rfl
  | succ fuel => rw [parseElements, parseElements, hskip]

theorem parseMembers_skip : parseMembers fuel (skip text) = parseMembers fuel text := by
  have hskip : skip (skip text) = skip text := List.dropWhile_idempotent _ _
  cases fuel with
  | zero => rfl
  | succ fuel => rw [parseMembers, parseMembers, hskip]

end First

/-! ### The tree that was printed -/

section RoundTrip

variable {N : Type} {printNumber : N → Bytes} (fmt : Bool)

/-- A text begins with a character that is neither white space nor a closing bracket or brace. -/
theorem printValue_head (hnumber : ∀ n, WritesNumber (printNumber n)) (depth : Nat) (item : Json N) :
    ∃ c text, printValue printNumber fmt depth item = c :: text ∧ 32 < c ∧ c ≠ closeBracket := by
  cases item with
  | null => exact ⟨_, _, rfl, by decide, by decide⟩
  | false => exact ⟨_, _, rfl, by decide, by decide⟩
  | true => exact ⟨_, _, rfl, by decide, by decide⟩
  | number value =>
      rcases hnumber value with ⟨hfirst, -⟩ | hnull
      · cases htext : printNumber value with
        | nil => simp [htext] at hfirst
        | cons c text =>
            refine ⟨c, text, by rw [printValue, htext], ?_⟩
            have hall : ∀ n : Fin 256, (UInt8.ofNat n = minus ∨ isDigit (UInt8.ofNat n)) →
                32 < UInt8.ofNat n ∧ UInt8.ofNat n ≠ closeBracket := by decide +kernel
            have hc : c = minus ∨ isDigit c := by simpa [htext] using hfirst
            simpa using hall ⟨c.toNat, c.toNat_lt⟩ (by simpa using hc)
      · exact ⟨_, _, by rw [printValue, hnull], by decide, by decide⟩
  | string value =>
      rw [printValue, printStringPtr_eq]
      exact ⟨_, _, rfl, by decide, by decide⟩
  | array elements =>
      rw [printValue, printArray]
      split_ifs
      · exact ⟨_, _, rfl, by decide, by decide⟩
      · exact ⟨_, _, rfl, by decide, by decide⟩
  | object members =>
      rw [printValue, printObject]
      split_ifs
      all_goals exact ⟨_, _, rfl, by decide, by decide⟩

variable (printNumber) in
/-- The text of an item is parsed to the item, in which the numbers are what their texts are read as. -/
def ParsesValue (item : Json N) : Prop :=
  ∀ (depth fuel : Nat) (rest : Bytes), Stops rest →
    2 * (printValue printNumber fmt depth item ++ rest).length + 1 ≤ fuel →
    parseValue fuel (printValue printNumber fmt depth item ++ rest) = some (item.subst (reread printNumber), rest)

variable (printNumber) in
/-- The entries of an array are parsed up to the bracket. -/
def ParsesElements (elements : Elements N) : Prop :=
  ∀ (depth fuel : Nat) (rest : Bytes), elements ≠ .nil →
    2 * (composeElements fmt (printElements printNumber fmt depth elements) ++ closeBracket :: rest).length + 2 ≤ fuel →
    parseElements fuel (composeElements fmt (printElements printNumber fmt depth elements) ++ closeBracket :: rest) =
      some (elements.subst (reread printNumber), rest)

variable (printNumber) in
/-- The entries of an object are parsed up to the brace, before which there may be white space. -/
def ParsesMembers (members : Members N) : Prop :=
  ∀ (depth fuel : Nat) (tail rest : Bytes), members ≠ .nil → skip tail = closeBrace :: rest →
    2 * (composeMembers fmt depth (printMembers printNumber fmt depth members) ++ tail).length + 2 ≤ fuel →
    parseMembers fuel (composeMembers fmt depth (printMembers printNumber fmt depth members) ++ tail) =
      some (members.subst (reread printNumber), rest)

variable {fmt}

theorem parsesValue_number {value : N} (hnumber : WritesNumber (printNumber value)) :
    ParsesValue printNumber fmt (.number value) := by
  intro depth fuel rest hrest hfuel
  obtain ⟨fuel, rfl⟩ : ∃ f, fuel = f + 1 := ⟨fuel - 1, by omega⟩
  rw [printValue, Json.subst, reread]
  rcases hnumber with hnumeral | hnull
  · have hparse := parseNumber_append hrest hnumeral
    obtain ⟨hfirst, -⟩ := hnumeral
    cases htext : printNumber value with
    | nil => simp [htext] at hfirst
    | cons c text =>
        have hc : c = minus ∨ isDigit c := by simpa [htext] using hfirst
        have hnull : c :: text ≠ nullText := by
          intro heq
          rw [(List.cons.inj heq).1] at hc
          revert hc
          decide
        rw [htext, List.cons_append] at hparse
        rw [List.cons_append, parseValue_number fuel _ hc, hparse, if_neg hnull]
  · rw [hnull, if_pos rfl]
    simp [parseValue]

theorem parsesValue_string (value : CString) : ParsesValue printNumber fmt (.string value) := by
  intro depth fuel rest hrest hfuel
  obtain ⟨fuel, rfl⟩ : ∃ f, fuel = f + 1 := ⟨fuel - 1, by omega⟩
  have hparse := parseString_print value rest
  rw [printValue, Json.subst]
  rw [printStringPtr_eq, List.cons_append] at hparse ⊢
  rw [parseValue_quote, hparse]
  rfl

theorem parsesValue_array (hnumber : ∀ n, WritesNumber (printNumber n)) {elements : Elements N}
    (h : ParsesElements printNumber fmt elements) : ParsesValue printNumber fmt (.array elements) := by
  intro depth fuel rest hrest hfuel
  obtain ⟨fuel, rfl⟩ : ∃ f, fuel = f + 1 := ⟨fuel - 1, by omega⟩
  cases elements with
  | nil =>
      have htext : printValue printNumber fmt depth (.array .nil) ++ rest = openBracket :: closeBracket :: rest := rfl
      rw [htext, parseValue_bracket, parseArray, parseEnclosed, skip_stop (by decide)]
      rfl
  | cons first next =>
      have htext : printValue printNumber fmt depth (.array (.cons first next)) ++ rest = openBracket ::
          (composeElements fmt (printElements printNumber fmt (depth + 1) (.cons first next)) ++
            closeBracket :: rest) := by
        simp [printValue, printArray, printElements]
      rw [htext, List.length_cons] at hfuel
      have hitems := h (depth + 1) fuel rest (by simp) (by omega)
      obtain ⟨c, text, hfirst, hc, hclose⟩ := printValue_head fmt hnumber (depth + 1) first
      rw [htext, parseValue_bracket, parseArray, parseEnclosed]
      rw [printElements, composeElements, hfirst, List.append_assoc, List.cons_append] at hitems ⊢
      rw [skip_stop hc, hitems]
      simp [hclose, Json.subst]

theorem parsesValue_object {members : Members N} (h : ParsesMembers printNumber fmt members) :
    ParsesValue printNumber fmt (.object members) := by
  intro depth fuel rest hrest hfuel
  obtain ⟨fuel, rfl⟩ : ∃ f, fuel = f + 1 := ⟨fuel - 1, by omega⟩
  cases members with
  | nil =>
      have htext : printValue printNumber fmt depth (.object .nil) ++ rest =
          openBrace :: ((if fmt then 10 :: tabs depth else []) ++ closeBrace :: rest) := by
        simp [printValue, printObject, printMembers]
      have hspace : ∀ text, skip (10 :: tabs depth ++ text) = skip text := by
        intro text
        rw [List.cons_append, skip_space (by decide), skip_tabs]
      have hskip : skip ((if fmt then 10 :: tabs depth else []) ++ closeBrace :: rest) = closeBrace :: rest :=
        (skip_fmt fmt hspace _).trans (skip_stop (by decide))
      rw [htext, parseValue_brace, parseObject, parseEnclosed, hskip]
      rfl
  | cons key first next =>
      have htext : printValue printNumber fmt depth (.object (.cons key first next)) ++ rest = openBrace ::
          ((if fmt then [10] else []) ++
            (composeMembers fmt (depth + 1) (printMembers printNumber fmt (depth + 1) (.cons key first next)) ++
              ((if fmt then tabs depth else []) ++ closeBrace :: rest))) := by
        simp [printValue, printObject, printMembers]
      have htail : skip ((if fmt then tabs depth else []) ++ closeBrace :: rest) = closeBrace :: rest :=
        (skip_fmt fmt (skip_tabs depth) _).trans (skip_stop (by decide))
      rw [htext, List.length_cons, List.length_append] at hfuel
      have hitems := h (depth + 1) fuel _ rest (by simp) htail (by omega)
      obtain ⟨more, hmore⟩ : ∃ more, skip (composeMembers fmt (depth + 1)
          (printMembers printNumber fmt (depth + 1) (.cons key first next)) ++
            ((if fmt then tabs depth else []) ++ closeBrace :: rest)) = quote :: more := by
        rw [printMembers, composeMembers, List.append_assoc, skip_fmt fmt (skip_tabs _), printStringPtr_eq,
          List.append_assoc, List.cons_append, skip_stop (by decide)]
        exact ⟨_, rfl⟩
      rw [htext, parseValue_brace, parseObject, parseEnclosed, skip_fmt fmt skip_newline, parseMembers_skip, hitems,
        hmore]
      rfl

theorem parsesElements_cons (hnumber : ∀ n, WritesNumber (printNumber n)) {item : Json N} {next : Elements N}
    (hitem : ParsesValue printNumber fmt item) (hnext : ParsesElements printNumber fmt next) :
    ParsesElements printNumber fmt (.cons item next) := by
  intro depth fuel rest _ hfuel
  obtain ⟨fuel, rfl⟩ : ∃ f, fuel = f + 1 := ⟨fuel - 1, by omega⟩
  obtain ⟨c, text, hfirst, hc, -⟩ := printValue_head fmt hnumber depth item
  have hskip : ∀ after, skip (printValue printNumber fmt depth item ++ after) =
      printValue printNumber fmt depth item ++ after := by
    intro after
    rw [hfirst, List.cons_append, skip_stop hc]
  rw [printElements, composeElements, List.append_assoc] at hfuel ⊢
  cases next with
  | nil =>
      have hafter : (if (printElements printNumber fmt depth (.nil : Elements N)).isEmpty then []
          else comma :: if fmt then [32] else []) ++ composeElements fmt (printElements printNumber fmt depth .nil) ++
          closeBracket :: rest = closeBracket :: rest := rfl
      rw [hafter] at hfuel ⊢
      rw [parseElements, hskip, hitem depth fuel _ (stops_cons (by decide) rest) (by omega), Option.bind_some]
      dsimp only
      rw [skip_stop (by decide)]
      rfl
  | cons item' next' =>
      have hafter : (if (printElements printNumber fmt depth (.cons item' next')).isEmpty then []
          else comma :: if fmt then [32] else []) ++
          composeElements fmt (printElements printNumber fmt depth (.cons item' next')) ++ closeBracket :: rest =
          comma :: ((if fmt then [32] else []) ++
            (composeElements fmt (printElements printNumber fmt depth (.cons item' next')) ++
              closeBracket :: rest)) := by
        simp [printElements]
      rw [hafter] at hfuel ⊢
      have hparse := fun text => hitem depth fuel (comma :: text) (stops_cons (by decide) text)
      rw [parseElements, hskip, hparse _ (by omega), Option.bind_some]
      rw [List.length_append, List.length_cons, List.length_append] at hfuel
      have hitems := hnext depth fuel rest (by simp) (by omega)
      rw [← parseElements_skip, ← skip_fmt fmt skip_blank, parseElements_skip] at hitems
      dsimp only
      rw [skip_stop (by decide)]
      dsimp only
      rw [if_pos rfl, hitems]
      rfl

theorem parsesMembers_cons (hnumber : ∀ n, WritesNumber (printNumber n)) {item : Json N} {next : Members N}
    (key : CString) (hitem : ParsesValue printNumber fmt item) (hnext : ParsesMembers printNumber fmt next) :
    ParsesMembers printNumber fmt (.cons key item next) := by
  intro depth fuel tail rest _ htail hfuel
  obtain ⟨fuel, rfl⟩ : ∃ f, fuel = f + 1 := ⟨fuel - 1, by omega⟩
  obtain ⟨c, text, hfirst, hc, -⟩ := printValue_head fmt hnumber depth item
  have hskip : ∀ after, skip ((if fmt then [9] else []) ++ (printValue printNumber fmt depth item ++ after)) =
      printValue printNumber fmt depth item ++ after := by
    intro after
    rw [skip_fmt fmt skip_tab, hfirst, List.cons_append, skip_stop hc]
  -- what stands after the value of the first member
  obtain ⟨after, hafter⟩ : ∃ after, after =
      (if (printMembers printNumber fmt depth next).isEmpty then [] else [comma]) ++
        ((if fmt then [10] else []) ++ (composeMembers fmt depth (printMembers printNumber fmt depth next) ++ tail)) :=
    ⟨_, rfl⟩
  have htext : composeMembers fmt depth (printMembers printNumber fmt depth (.cons key item next)) ++ tail =
      (if fmt then tabs depth else []) ++ (printStringPtr key ++ (colon :: ((if fmt then [9] else []) ++
        (printValue printNumber fmt depth item ++ after)))) := by
    rw [hafter, printMembers, composeMembers]
    simp only [List.append_assoc, List.cons_append]
  have hkey : skip (composeMembers fmt depth (printMembers printNumber fmt depth (.cons key item next)) ++ tail) =
      printStringPtr key ++ (colon :: ((if fmt then [9] else []) ++
        (printValue printNumber fmt depth item ++ after))) := by
    rw [htext, skip_fmt fmt (skip_tabs _), printStringPtr_eq, List.cons_append, skip_stop (by decide)]
  rw [htext] at hfuel
  simp only [List.length_append, List.length_cons] at hfuel
  have hparse : Stops after → parseValue fuel (printValue printNumber fmt depth item ++ after) =
      some (item.subst (reread printNumber), after) := by
    intro hstops
    exact hitem depth fuel after hstops (by rw [List.length_append]; omega)
  rw [parseMembers, hkey, parseString_print, Option.bind_some]
  dsimp only
  rw [skip_stop (by decide), if_neg (by simp), List.tail_cons, hskip]
  cases next with
  | nil =>
      have hclose : skip after = closeBrace :: rest := by
        rw [hafter]
        exact (skip_fmt fmt skip_newline tail).trans htail
      rw [hparse (stops_of_skip hclose (stops_cons (by decide) rest)), Option.bind_some]
      dsimp only
      rw [hclose]
      rfl
  | cons key' item' next' =>
      have hcomma : after = comma :: ((if fmt then [10] else []) ++
          (composeMembers fmt depth (printMembers printNumber fmt depth (.cons key' item' next')) ++ tail)) := by
        rw [hafter, printMembers]
        rfl
      have hlength := congrArg List.length hcomma
      rw [List.length_cons, List.length_append] at hlength
      have hitems := hnext depth fuel tail rest (by simp) htail (by omega)
      rw [← parseMembers_skip, ← skip_fmt fmt skip_newline, parseMembers_skip] at hitems
      rw [hparse (hcomma ▸ stops_cons (by decide) _), Option.bind_some]
      dsimp only
      rw [hcomma, skip_stop (by decide)]
      dsimp only
      rw [if_pos rfl, hitems]
      rfl

variable (fmt) (hnumber : ∀ n, WritesNumber (printNumber n))

include hnumber

mutual

theorem parsesValue : ∀ item : Json N, ParsesValue printNumber fmt item
  | .null => by
      intro depth fuel rest hrest hfuel
      obtain ⟨fuel, rfl⟩ : ∃ f, fuel = f + 1 := ⟨fuel - 1, by omega⟩
      simp [printValue, parseValue, Json.subst]
  | .false => by
      intro depth fuel rest hrest hfuel
      obtain ⟨fuel, rfl⟩ : ∃ f, fuel = f + 1 := ⟨fuel - 1, by omega⟩
      simp [printValue, parseValue, Json.subst]
  | .true => by
      intro depth fuel rest hrest hfuel
      obtain ⟨fuel, rfl⟩ : ∃ f, fuel = f + 1 := ⟨fuel - 1, by omega⟩
      simp [printValue, parseValue, Json.subst]
  | .number value => parsesValue_number (hnumber value)
  | .string value => parsesValue_string value
  | .array elements => parsesValue_array hnumber (parsesElements elements)
  | .object members => parsesValue_object (parsesMembers members)

theorem parsesElements : ∀ elements : Elements N, ParsesElements printNumber fmt elements
  | .nil => fun _ _ _ hnil => absurd rfl hnil
  | .cons item next => parsesElements_cons hnumber (parsesValue item) (parsesElements next)

theorem parsesMembers : ∀ members : Members N, ParsesMembers printNumber fmt members
  | .nil => fun _ _ _ _ hnil => absurd rfl hnil
  | .cons key item next => parsesMembers_cons hnumber key (parsesValue item) (parsesMembers next)

end

/-- What is printed, with or without format, is parsed to the tree that was printed, and nothing is left of it. -/
theorem parseWithOpts_printValue (depth : Nat) (item : Json N) (requireNullTerminated : Bool) :
    parseWithOpts (printValue printNumber fmt depth item) requireNullTerminated =
      some (item.subst (reread printNumber), []) := by
  have hstops : Stops [] := fun c hc => nomatch hc
  obtain ⟨c, text, hfirst, hc, -⟩ := printValue_head fmt hnumber depth item
  have hskip : skip (printValue printNumber fmt depth item) = printValue printNumber fmt depth item := by
    rw [hfirst, skip_stop hc]
  have hparse := parsesValue fmt hnumber item depth _ [] hstops le_rfl
  rw [List.append_nil] at hparse
  rw [parseWithOpts, hskip, parseFuel, hparse]
  cases requireNullTerminated <;> rfl

end RoundTrip

/-! ### Numbers that are printed -/

/-- What `print_number` writes for an `int`. -/
def printInt (n : Int) : Bytes := (toString n).toList.map fun c => UInt8.ofNat c.toNat

/-- A number has no leading zero. -/
theorem toDigits_cons {n : Nat} (hn : 0 < n) : ∃ c cs, Nat.toDigits 10 n = c :: cs ∧ c ≠ '0' := by
  induction n using Nat.strong_induction_on with
  | h n ih =>
      by_cases hlt : n < 10
      · have hall : ∀ m < 10, 0 < m → Nat.digitChar m ≠ '0' := by decide
        exact ⟨_, _, Nat.toDigits_of_lt_base hlt, hall n hlt hn⟩
      · obtain ⟨c, cs, hcs, hc⟩ := ih (n / 10) (by omega) (by omega)
        refine ⟨c, cs ++ [Nat.digitChar (n % 10)], ?_, hc⟩
        rw [Nat.toDigits_of_base_le (by decide) (by omega), hcs, List.cons_append]

theorem dropDigits_eq_nil {digits : Bytes} (h : ∀ c ∈ digits, isDigit c) : dropDigits digits = [] :=
  List.dropWhile_eq_nil_iff.mpr h

/-- Digits without a leading zero are a numeral, with a sign or without. -/
theorem isNumeral_digits {digits : Bytes} (hdigits : ∀ c ∈ digits, isDigit c)
    (hzero : digits = [48] ∨ ∃ c rest, digits = c :: rest ∧ c ≠ 48) :
    IsNumeral digits ∧ IsNumeral (minus :: digits) := by
  have hwhole : dropExponent (dropFraction (dropWhole (dropOne 48 digits))) = [] := by
    rcases hzero with rfl | ⟨c, rest, rfl, hc⟩
    · decide
    · have hdigit := hdigits c List.mem_cons_self
      have hrange : 49 ≤ c ∧ c ≤ 57 := by
        have hne : c.toNat ≠ 48 := fun heq => hc (UInt8.toNat_inj.mp heq)
        simp only [isDigit, decide_eq_true_eq, UInt8.le_iff_toNat_le, UInt8.reduceToNat] at hdigit ⊢
        omega
      have hkeep : dropOne 48 (c :: rest) = c :: rest := by simp [dropOne, hc]
      rw [hkeep, dropWhole, if_pos hrange, dropDigits_eq_nil hdigits]
      rfl
  have hdigit : ∃ c rest, digits = c :: rest ∧ isDigit c = true := by
    rcases hzero with rfl | ⟨c, rest, rfl, -⟩
    · exact ⟨48, [], rfl, by decide⟩
    · exact ⟨c, rest, rfl, hdigits c List.mem_cons_self⟩
  obtain ⟨c, rest, rfl, hc⟩ := hdigit
  have hsign : dropOne minus (c :: rest) = c :: rest := by
    have hne : c ≠ minus := by
      rintro rfl
      revert hc
      decide
    simp [dropOne, hne]
  constructor
  · have hfirst : c = minus ∨ isDigit c := .inr hc
    exact ⟨by simpa using hfirst, by rw [numberEnd, hsign, hwhole]⟩
  · have hdrop : dropOne minus (minus :: c :: rest) = c :: rest := by simp [dropOne]
    exact ⟨by simp, by rw [numberEnd, hdrop, hwhole]⟩

theorem isNumeral_printInt (n : Int) : IsNumeral (printInt n) := by
  have hbyte : ∀ c : Char, c.isDigit = true → isDigit (UInt8.ofNat c.toNat) = true ∧
      (UInt8.ofNat c.toNat = 48 → c = '0') := by
    intro c hc
    rw [Char.isDigit_iff_toNat, show '0'.toNat = 48 from rfl, show '9'.toNat = 57 from rfl] at hc
    have htoNat : (UInt8.ofNat c.toNat).toNat = c.toNat := by rw [UInt8.toNat_ofNat', Nat.mod_eq_of_lt (by omega)]
    constructor
    · simpa [isDigit, UInt8.le_iff_toNat_le, htoNat] using hc
    · intro heq
      have hnat : c.toNat = '0'.toNat := by rw [← htoNat, heq]; rfl
      rw [← Char.ofNat_toNat c, hnat]
      rfl
  have hnumeral : ∀ m : Nat, IsNumeral ((Nat.toDigits 10 m).map fun c => UInt8.ofNat c.toNat) ∧
      IsNumeral (minus :: (Nat.toDigits 10 m).map fun c => UInt8.ofNat c.toNat) := by
    intro m
    have hdigits : ∀ c ∈ Nat.toDigits 10 m, c.isDigit = true :=
      fun c hc => Nat.isDigit_of_mem_toDigits (by decide) (by decide) hc
    refine isNumeral_digits ?_ ?_
    · intro b hb
      obtain ⟨c, hc, rfl⟩ := List.mem_map.mp hb
      exact (hbyte c (hdigits c hc)).1
    · rcases Nat.eq_zero_or_pos m with rfl | hpos
      · exact .inl rfl
      · obtain ⟨c, cs, hcs, hc⟩ := toDigits_cons hpos
        have hdigit := hdigits c (hcs ▸ List.mem_cons_self)
        exact .inr ⟨_, _, by rw [hcs, List.map_cons], fun heq => hc ((hbyte c hdigit).2 heq)⟩
  cases n with
  | ofNat m =>
      have htext : (toString (Int.ofNat m)).toList = Nat.toDigits 10 m := Nat.toList_repr
      rw [printInt, htext]
      exact (hnumeral m).1
  | negSucc m =>
      have htext : (toString (Int.negSucc m)).toList = '-' :: Nat.toDigits 10 (m + 1) := by
        rw [← @Nat.toList_repr (m + 1)]
        exact String.toList_append
      rw [printInt, htext, List.map_cons]
      exact (hnumeral (m + 1)).2

/-- Whole numbers, and one that is not finite. -/
theorem parseWithOpts_printValue_ints :
    parseWithOpts (printValue (fun n : Option Int => n.elim nullText printInt) true 0
      (.array (.cons (.number (some (-20))) (.cons (.number none) (.cons (.object .nil) .nil))))) true =
        some (.array (.cons (.number [45, 50, 48]) (.cons .null (.cons (.object .nil) .nil))), []) := by
  have hnumber : ∀ n : Option Int, WritesNumber (n.elim nullText printInt) := by
    intro n
    cases n with
    | none => exact .inr rfl
    | some n => exact .inl (isNumeral_printInt n)
  exact parseWithOpts_printValue true hnumber 0
    (.array (.cons (.number (some (-20))) (.cons (.number none) (.cons (.object .nil) .nil)))) true

/-! ### Memory for the texts -/

/-- The length that `print_array` counts. -/
def arrayLength (fmt : Bool) (entries : List Bytes) : Nat :=
  if entries.isEmpty then 3 else 5 + (entries.map fun entry => entry.length + 2 + if fmt then 1 else 0).sum

/-- The room that `print_array` allocates. -/
def printArrayRoom (fmt : Bool) (entries : List Bytes) : Int := intOf (arrayLength fmt entries)

/-- The length that `print_object` counts. -/
def objectLength (fmt : Bool) (depth : Nat) (entries : List (Bytes × Bytes)) : Nat :=
  if entries.isEmpty then if fmt then depth + 4 else 3
  else
    7 + (if fmt then depth + 1 else 0) +
      (entries.map fun (name, entry) => entry.length + name.length + 2 + if fmt then 2 + (depth + 1) else 0).sum

/-- The room that `print_object` allocates. -/
def printObjectRoom (fmt : Bool) (depth : Nat) (entries : List (Bytes × Bytes)) : Int :=
  intOf (objectLength fmt depth entries)

/-- What is counted for an entry of an array is enough for it, and less than twice too much. -/
theorem composeElements_length (fmt : Bool) (entries : List Bytes) :
    (composeElements fmt entries).length ≤ (entries.map fun entry => entry.length + 2 + if fmt then 1 else 0).sum ∧
      (entries.map fun entry => entry.length + 2 + if fmt then 1 else 0).sum ≤
        2 * (composeElements fmt entries).length + 3 := by
  induction entries with
  | nil => simp [composeElements]
  | cons entry rest ih =>
      rw [composeElements, List.map_cons, List.sum_cons, List.length_append, List.length_append]
      have hfmt : (if fmt then 1 else 0) ≤ 1 := by split_ifs <;> simp
      cases rest with
      | nil =>
          simp only [composeElements, List.isEmpty_nil, if_true, List.length_nil, List.map_nil, List.sum_nil]
          omega
      | cons entry' rest' =>
          have hseparator : (if (entry' :: rest').isEmpty then [] else comma :: if fmt then [32] else []).length =
              1 + if fmt then 1 else 0 := by
            cases fmt <;> rfl
          omega

theorem printArray_length (fmt : Bool) (entries : List Bytes) :
    (printArray fmt entries).length + 1 ≤ arrayLength fmt entries ∧
      arrayLength fmt entries ≤ 2 * (printArray fmt entries).length + 5 := by
  obtain ⟨henough, hmost⟩ := composeElements_length fmt entries
  by_cases hempty : entries.isEmpty = true
  · rw [printArray, arrayLength, if_pos hempty, if_pos hempty]
    exact ⟨by decide, by decide⟩
  · rw [printArray, arrayLength, if_neg hempty, if_neg hempty, List.length_cons, List.length_append,
      List.length_singleton]
    omega

/-- What is counted for the entries of an object is enough for them, and one too much for the last one. -/
theorem composeMembers_length (fmt : Bool) (depth : Nat) (entries : List (Bytes × Bytes)) :
    (composeMembers fmt (depth + 1) entries).length ≤
        (entries.map fun (name, entry) => entry.length + name.length + 2 + if fmt then 2 + (depth + 1) else 0).sum ∧
      (entries.map fun (name, entry) => entry.length + name.length + 2 + if fmt then 2 + (depth + 1) else 0).sum ≤
        (composeMembers fmt (depth + 1) entries).length + 1 := by
  induction entries with
  | nil => simp [composeMembers]
  | cons first rest ih =>
      obtain ⟨name, entry⟩ := first
      rw [composeMembers, List.map_cons, List.sum_cons]
      cases rest with
      | nil =>
          cases fmt
          · simp [composeMembers]
            omega
          · simp [composeMembers, tabs]
            omega
      | cons first' rest' =>
          cases fmt
          · simp only [List.length_append, List.length_cons, Bool.false_eq_true, if_false, List.length_nil,
              List.isEmpty_cons] at ih ⊢
            omega
          · simp only [List.length_append, List.length_cons, Bool.false_eq_true, if_false, if_true, List.length_nil,
              List.isEmpty_cons, tabs, List.length_replicate] at ih ⊢
            omega

theorem printObject_length (fmt : Bool) (depth : Nat) (entries : List (Bytes × Bytes)) :
    (printObject fmt depth entries).length + 1 ≤ objectLength fmt depth entries ∧
      objectLength fmt depth entries ≤ (printObject fmt depth entries).length + 6 := by
  obtain ⟨henough, hmost⟩ := composeMembers_length fmt depth entries
  by_cases hempty : entries.isEmpty = true
  · rw [printObject, objectLength, if_pos hempty, if_pos hempty]
    cases fmt <;> simp [tabs]
  · rw [printObject, objectLength, if_neg hempty, if_neg hempty]
    cases fmt
    · simp only [List.length_append, List.length_cons, List.length_nil, Bool.false_eq_true, if_false] at henough hmost ⊢
      omega
    · simp only [List.length_append, List.length_cons, List.length_nil, if_true, tabs, List.length_replicate]
        at henough hmost ⊢
      omega

section Fits

variable {N : Type} (printNumber : N → Bytes) (fmt : Bool)

mutual

/-- What is written for an item and for all items below it fits into what is allocated for it, with its `NUL`. -/
def Json.Fits : Nat → Json N → Prop
  | _, .null => True
  | _, .false => True
  | _, .true => True
  | _, .number _ => True
  | _, .string value => ((printStringPtr value).length : Int) + 1 ≤ printStringRoom value
  | depth, .array elements =>
      ((printArray fmt (printElements printNumber fmt (depth + 1) elements)).length : Int) + 1 ≤
          printArrayRoom fmt (printElements printNumber fmt (depth + 1) elements) ∧
        elements.Fits (depth + 1)
  | depth, .object members =>
      ((printObject fmt depth (printMembers printNumber fmt (depth + 1) members)).length : Int) + 1 ≤
          printObjectRoom fmt depth (printMembers printNumber fmt (depth + 1) members) ∧
        members.Fits (depth + 1)

def Elements.Fits : Nat → Elements N → Prop
  | _, .nil => True
  | depth, .cons item next => item.Fits depth ∧ next.Fits depth

def Members.Fits : Nat → Members N → Prop
  | _, .nil => True
  | depth, .cons key item next =>
      ((printStringPtr key).length : Int) + 1 ≤ printStringRoom key ∧ item.Fits depth ∧ next.Fits depth

end

/-- An `int` can count the text, and twice what it counts. -/
def Short (text : Bytes) : Prop := text.length + 2 < 2 ^ 30

theorem Short.of_le {text part : Bytes} (h : Short text) (hlen : part.length ≤ text.length) : Short part :=
  (Nat.add_le_add_right hlen 2).trans_lt h

theorem fits_string {str : CString} (h : Short (printStringPtr str)) :
    ((printStringPtr str).length : Int) + 1 ≤ printStringRoom str := by
  unfold Short at h
  rw [printStringRoom_eq (by omega)]

theorem fits_array {entries : List Bytes} (h : Short (printArray fmt entries)) :
    ((printArray fmt entries).length : Int) + 1 ≤ printArrayRoom fmt entries := by
  obtain ⟨henough, hmost⟩ := printArray_length fmt entries
  unfold Short at h
  rw [printArrayRoom, intOf_eq (by omega)]
  omega

theorem fits_object {depth : Nat} {entries : List (Bytes × Bytes)} (h : Short (printObject fmt depth entries)) :
    ((printObject fmt depth entries).length : Int) + 1 ≤ printObjectRoom fmt depth entries := by
  obtain ⟨henough, hmost⟩ := printObject_length fmt depth entries
  unfold Short at h
  rw [printObjectRoom, intOf_eq (by omega)]
  omega

/-- The entries are part of the text of an array. -/
theorem short_elements {entries : List Bytes} (h : Short (printArray fmt entries)) :
    Short (composeElements fmt entries) := by
  refine h.of_le ?_
  cases entries with
  | nil => exact Nat.zero_le _
  | cons entry rest => simp [printArray, Nat.le_add_right_of_le]

theorem short_members {depth : Nat} {entries : List (Bytes × Bytes)} (h : Short (printObject fmt depth entries)) :
    Short (composeMembers fmt (depth + 1) entries) := by
  refine h.of_le ?_
  cases entries with
  | nil => exact Nat.zero_le _
  | cons entry rest =>
      simp only [printObject, List.isEmpty_cons, Bool.false_eq_true, if_false, List.length_cons, List.length_append]
      omega

mutual

/-- No function writes beyond the memory that it allocates for a text, if the whole text is not too long. -/
theorem printValue_fits (depth : Nat) (item : Json N) (h : Short (printValue printNumber fmt depth item)) :
    item.Fits printNumber fmt depth := by
  match item with
  | .null | .false | .true | .number _ => trivial
  | .string value => exact fits_string h
  | .array elements => exact ⟨fits_array fmt h, printElements_fits (depth + 1) elements (short_elements fmt h)⟩
  | .object members => exact ⟨fits_object fmt h, printMembers_fits (depth + 1) members (short_members fmt h)⟩

theorem printElements_fits (depth : Nat) (elements : Elements N)
    (h : Short (composeElements fmt (printElements printNumber fmt depth elements))) :
    elements.Fits printNumber fmt depth := by
  match elements with
  | .nil => trivial
  | .cons item next =>
      rw [printElements, composeElements] at h
      refine ⟨printValue_fits depth item (h.of_le ?_), printElements_fits depth next (h.of_le ?_)⟩
      all_goals
        simp only [List.length_append]
        omega

theorem printMembers_fits (depth : Nat) (members : Members N)
    (h : Short (composeMembers fmt depth (printMembers printNumber fmt depth members))) :
    members.Fits printNumber fmt depth := by
  match members with
  | .nil => trivial
  | .cons key item next =>
      rw [printMembers, composeMembers] at h
      refine ⟨fits_string (h.of_le ?_), printValue_fits depth item (h.of_le ?_),
        printMembers_fits depth next (h.of_le ?_)⟩
      all_goals
        simp only [List.length_append, List.length_cons]
        omega

end

end Fits

/-- An array with an object in it, whose string has a quote and a control character. -/
theorem printValue_fits_object :
    Json.Fits printInt true 0 (.array (.cons (.object (.cons ⟨[97], by decide⟩
      (.string ⟨[quote, 1], by decide⟩) .nil)) .nil)) :=
  printValue_fits printInt true 0 _ (by unfold Short; decide)

end ComputerNetworking.CJson
