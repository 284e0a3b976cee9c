import ComputerNetworking.CJsonText

/-! The JSON library of the film server (`cJSON.c`): trees, how a text is parsed, and how a tree is printed.

A node and what hangs on it through `child` and `next` is a tree; the key `string` of a node stands in the list of
its object. The value of a number is a `double` and is left out: what is parsed has the literal, and what
`print_number` writes is a parameter. The buffer of `cJSON_PrintBuffered` is left out. -/

namespace ComputerNetworking.CJson

open Dht

/-! ### Trees -/

mutual

/-- `cJSON`, with numbers of the type `N`. -/
inductive Json (N : Type) where
  | null
  | false
  | true
  | number (value : N)
  | string (value : CString)
  | array (elements : Elements N)
  | object (members : Members N)

/-- The items of an array. -/
inductive Elements (N : Type) where
  | nil
  | cons (item : Json N) (next : Elements N)

/-- The items of an object with their keys. -/
inductive Members (N : Type) where
  | nil
  | cons (key : CString) (item : Json N) (next : Members N)

end

mutual

/-- The tree with an item in the place of each number. -/
def Json.subst {N M : Type} (f : N → Json M) : Json N → Json M
  | .null => .null
  | .false => .false
  | .true => .true
  | .number value => f value
  | .string value => .string value
  | .array elements => .array (elements.subst f)
  | .object members => .object (members.subst f)

def Elements.subst {N M : Type} (f : N → Json M) : Elements N → Elements M
  | .nil => .nil
  | .cons item next => .cons (item.subst f) (next.subst f)

def Members.subst {N M : Type} (f : N → Json M) : Members N → Members M
  | .nil => .nil
  | .cons key item next => .cons key (item.subst f) (next.subst f)

end

/-! ### Parsing -/

/-- `null` -/
abbrev nullText : Bytes := [110, 117, 108, 108]

/-- `false` -/
abbrev falseText : Bytes := [102, 97, 108, 115, 101]

/-- `true` -/
abbrev trueText : Bytes := [116, 114, 117, 101]

/-- `[` -/
abbrev openBracket : UInt8 := 91

/-- `]` -/
abbrev closeBracket : UInt8 := 93

/-- `{`, the opening brace -/
abbrev openBrace : UInt8 := 123

/-- `}`, the closing brace -/
abbrev closeBrace : UInt8 := 125

/-- `,` -/
abbrev comma : UInt8 := 44

/-- `:` -/
abbrev colon : UInt8 := 58

/-- `-` -/
abbrev minus : UInt8 := 45

abbrev isDigit (c : UInt8) : Bool := 48 ≤ c ∧ c ≤ 57

def dropDigits (num : Bytes) : Bytes := num.dropWhile isDigit

/-- One character, if it is there. -/
def dropOne (c : UInt8) (num : Bytes) : Bytes := if num.head? = some c then num.tail else num

/-- The digits, if the first one is not 0. -/
def dropWhole (num : Bytes) : Bytes :=
  match num with
  | [] => []
  | c :: _ => if 49 ≤ c ∧ c ≤ 57 then dropDigits num else num

/-- A point that has a digit after it, and the digits. -/
def dropFraction (num : Bytes) : Bytes :=
  match num with
  | c :: d :: rest => if c = 46 ∧ isDigit d then dropDigits (d :: rest) else num
  | _ => num

/-- The sign of an exponent. -/
def dropSign (num : Bytes) : Bytes := if num.head? = some 43 then num.tail else dropOne minus num

/-- The exponent may have no digits. -/
def dropExponent (num : Bytes) : Bytes :=
  match num with
  | [] => []
  | c :: rest =>
      if c = 101 ∨ c = 69 then dropDigits (dropSign rest) else num

/-- The text after a number, which has a sign and a leading zero at most. -/
def numberEnd (num : Bytes) : Bytes := dropExponent (dropFraction (dropWhole (dropOne 48 (dropOne minus num))))

/-- `parse_number`: the literal and the text after it. -/
def parseNumber (num : Bytes) : Bytes × Bytes :=
  (num.take (num.length - (numberEnd num).length), numberEnd num)

/-- A list of items that has a character before it and one after it, where a loop reads the items if there are any. -/
def parseEnclosed {α : Type} (opening closing : UInt8) (nil : α) (wrap : α → Json Bytes)
    (loop : Bytes → Option (α × Bytes)) (value : Bytes) : Option (Json Bytes × Bytes) :=
  match value with
  | [] => none
  | c :: rest =>
      if c ≠ opening then none
      else if (skip rest).head? = some closing then some (wrap nil, (skip rest).tail)
      else (loop (skip rest)).map fun (items, rest) => (wrap items, rest)

/-- `parse_array`, with its loop over the elements. -/
def parseArray (loop : Bytes → Option (Elements Bytes × Bytes)) (value : Bytes) : Option (Json Bytes × Bytes) :=
  parseEnclosed openBracket closeBracket .nil .array loop value

/-- `parse_object`, with its loop over the members. -/
def parseObject (loop : Bytes → Option (Members Bytes × Bytes)) (value : Bytes) : Option (Json Bytes × Bytes) :=
  parseEnclosed openBrace closeBrace .nil .object loop value

mutual

/-- `parse_value`: the tree and the text after it. The fuel is for the recursion. -/
def parseValue : Nat → Bytes → Option (Json Bytes × Bytes)
  | 0, _ => none
  | fuel + 1, value =>
      if value.take 4 = nullText then some (.null, value.drop 4)
      else if value.take 5 = falseText then some (.false, value.drop 5)
      else if value.take 4 = trueText then some (.true, value.drop 4)
      else
        match value with
        | [] => none
        | c :: _ =>
            if c = quote then (parseString value).map fun (str, rest) => (.string str, rest)
            else if c = minus ∨ isDigit c then some (.number (parseNumber value).1, (parseNumber value).2)
            else if c = openBracket then parseArray (parseElements fuel) value
            else if c = openBrace then parseObject (parseMembers fuel) value
            else none

/-- An element of `parse_array` and those after it, up to the bracket. -/
def parseElements : Nat → Bytes → Option (Elements Bytes × Bytes)
  | 0, _ => none
  | fuel + 1, value =>
      (parseValue fuel (skip value)).bind fun (item, rest) =>
        match skip rest with
        | [] => none
        | c :: rest =>
            if c = comma then (parseElements fuel rest).map fun (items, rest) => (.cons item items, rest)
            else if c = closeBracket then some (.cons item .nil, rest)
            else none

/-- A member of `parse_object` and those after it, up to the brace. -/
def parseMembers : Nat → Bytes → Option (Members Bytes × Bytes)
  | 0, _ => none
  | fuel + 1, value =>
      (parseString (skip value)).bind fun (key, rest) =>
        if (skip rest).head? ≠ some colon then none
        else
          (parseValue fuel (skip (skip rest).tail)).bind fun (item, rest) =>
            match skip rest with
            | [] => none
            | c :: rest =>
                if c = comma then (parseMembers fuel rest).map fun (items, rest) => (.cons key item items, rest)
                else if c = closeBrace then some (.cons key item .nil, rest)
                else none

end

/-- The fuel that is enough for a text. -/
def parseFuel (value : Bytes) : Nat := 2 * value.length + 1

/-- `cJSON_ParseWithOpts`: the tree and the text after it. -/
def parseWithOpts (value : Bytes) (requireNullTerminated : Bool) : Option (Json Bytes × Bytes) :=
  (parseValue (parseFuel (skip value)) (skip value)).bind fun (item, rest) =>
    if requireNullTerminated then
      if (skip rest).head?.all (· = 0) then some (item, skip rest) else none
    else some (item, rest)

/-- `cJSON_Parse`. -/
def parse (value : Bytes) : Option (Json Bytes) := (parseWithOpts value false).map Prod.fst

/-! ### Printing -/

def tabs (n : Nat) : Bytes := List.replicate n 9

/-- The entries of an array between its brackets. -/
def composeElements (fmt : Bool) : List Bytes → Bytes
  | [] => []
  | entry :: rest =>
      entry ++ ((if rest.isEmpty then [] else comma :: if fmt then [32] else []) ++ composeElements fmt rest)

/-- `print_array`, from the texts of the entries. -/
def printArray (fmt : Bool) (entries : List Bytes) : Bytes :=
  if entries.isEmpty then [openBracket, closeBracket]
  else openBracket :: (composeElements fmt entries ++ [closeBracket])

/-- The entries of an object with their names between its braces, where `depth` is that of the entries. -/
def composeMembers (fmt : Bool) (depth : Nat) : List (Bytes × Bytes) → Bytes
  | [] => []
  | (name, entry) :: rest =>
      (if fmt then tabs depth else []) ++ (name ++ (colon :: ((if fmt then [9] else []) ++ (entry ++
        ((if rest.isEmpty then [] else [comma]) ++ ((if fmt then [10] else []) ++ composeMembers fmt depth rest))))))

/-- `print_object`, from the names and the texts of the entries. -/
def printObject (fmt : Bool) (depth : Nat) (entries : List (Bytes × Bytes)) : Bytes :=
  if entries.isEmpty then openBrace :: ((if fmt then 10 :: tabs depth else []) ++ [closeBrace])
  else
    openBrace :: ((if fmt then [10] else []) ++ (composeMembers fmt (depth + 1) entries ++
      ((if fmt then tabs depth else []) ++ [closeBrace])))

mutual

/-- `print_value`, where `print_number` writes the numbers. -/
def printValue {N : Type} (printNumber : N → Bytes) (fmt : Bool) (depth : Nat) : Json N → Bytes
  | .null => nullText
  | .false => falseText
  | .true => trueText
  | .number value => printNumber value
  | .string value => printStringPtr value
  | .array elements => printArray fmt (printElements printNumber fmt (depth + 1) elements)
  | .object members => printObject fmt depth (printMembers printNumber fmt (depth + 1) members)

def printElements {N : Type} (printNumber : N → Bytes) (fmt : Bool) (depth : Nat) : Elements N → List Bytes
  | .nil => []
  | .cons item next => printValue printNumber fmt depth item :: printElements printNumber fmt depth next

def printMembers {N : Type} (printNumber : N → Bytes) (fmt : Bool) (depth : Nat) : Members N → List (Bytes × Bytes)
  | .nil => []
  | .cons key item next =>
      (printStringPtr key, printValue printNumber fmt depth item) :: printMembers printNumber fmt depth next

end

/-- `cJSON_Print`. -/
def print {N : Type} (printNumber : N → Bytes) (item : Json N) : Bytes := printValue printNumber true 0 item

/-- `cJSON_PrintUnformatted`. -/
def printUnformatted {N : Type} (printNumber : N → Bytes) (item : Json N) : Bytes :=
  printValue printNumber false 0 item

/-! ### Items -/

/-- `tolower` in the C locale. -/
def tolower (c : UInt8) : UInt8 := if 65 ≤ c ∧ c ≤ 90 then c + 32 else c

/-- `cJSON_strcasecmp`. -/
def strcasecmp : Bytes → Bytes → Int
  | c :: s₁, d :: s₂ =>
      if tolower c = tolower d then strcasecmp s₁ s₂ else (tolower c).toNat - (tolower d).toNat
  | c :: _, [] => (tolower c).toNat
  | [], d :: _ => -(tolower d).toNat
  | [], [] => 0

/-- The loop of `cJSON_GetObjectItem`. -/
def Members.find {N : Type} (string : CString) : Members N → Option (Json N)
  | .nil => none
  | .cons key item next => if strcasecmp key.bytes string.bytes ≠ 0 then next.find string else some item

/-- `cJSON_GetObjectItem`. The items of an array have no key. -/
def getObjectItem {N : Type} (object : Json N) (string : CString) : Option (Json N) :=
  match object with
  | .object members => members.find string
  | _ => none

/-- The items of an object in their order. -/
def Members.ofList {N : Type} : List (CString × Json N) → Members N
  | [] => .nil
  | (key, item) :: rest => .cons key item (ofList rest)

/-- The items of an array in their order. -/
def Elements.toList {N : Type} : Elements N → List (Json N)
  | .nil => []
  | .cons item next => item :: next.toList

/-- `cJSON_AddItemToArray`, which puts the item at the end. -/
def addItemToArray {N : Type} (item : Json N) : Elements N → Elements N
  | .nil => .cons item .nil
  | .cons first next => .cons first (addItemToArray item next)

/-- `cJSON_AddItemToObject`. -/
def addItemToObject {N : Type} (string : CString) (item : Json N) : Members N → Members N
  | .nil => .cons string item .nil
  | .cons key first next => .cons key first (addItemToObject string item next)

/-- `cJSON_AddStringToObject`. -/
def addStringToObject {N : Type} (name value : CString) (object : Members N) : Members N :=
  addItemToObject name (.string value) object

/-- `valuestring`. -/
def Json.valuestring {N : Type} : Json N → Option CString
  | .string value => some value
  | _ => none

/-! ### Items by their keys -/

/-- A key without regard to case. -/
def CString.lower (str : CString) : Bytes := str.bytes.map tolower

theorem tolower_ne_zero {c : UInt8} (h : c ≠ 0) : tolower c ≠ 0 := by
  have hall : ∀ n : Fin 256, UInt8.ofNat n ≠ 0 → tolower (UInt8.ofNat n) ≠ 0 := by decide +kernel
  simpa using hall ⟨c.toNat, c.toNat_lt⟩ (by simpa using h)

theorem strcasecmp_eq_zero {s t : Bytes} (hs : (0 : UInt8) ∉ s) (ht : (0 : UInt8) ∉ t) :
    strcasecmp s t = 0 ↔ s.map tolower = t.map tolower := by
  have hpos : ∀ {c : UInt8}, c ≠ 0 → (tolower c).toNat ≠ 0 :=
    fun hc hzero => tolower_ne_zero hc (UInt8.toNat_inj.mp hzero)
  induction s generalizing t with
  | nil =>
      cases t with
      | nil => simp [strcasecmp]
      | cons d t =>
          have hd := hpos fun heq => ht (heq ▸ List.mem_cons_self)
          rw [strcasecmp]
          simp only [List.map_nil, List.map_cons, reduceCtorEq, iff_false]
          omega
  | cons c s ih =>
      have hc := hpos fun heq => hs (heq ▸ List.mem_cons_self)
      cases t with
      | nil =>
          rw [strcasecmp]
          simp only [List.map_nil, List.map_cons, reduceCtorEq, iff_false]
          omega
      | cons d t =>
          have hrest := ih (fun hmem => hs (List.mem_cons_of_mem c hmem)) fun hmem => ht (List.mem_cons_of_mem d hmem)
          rw [strcasecmp, List.map_cons, List.map_cons, List.cons.injEq]
          split_ifs with heq
          · simp only [heq, true_and, hrest]
          · have hne : (tolower c).toNat ≠ (tolower d).toNat := fun hnat => heq (UInt8.toNat_inj.mp hnat)
            simp only [heq, false_and, iff_false]
            omega

section Find

variable {N M : Type}

/-- Where no two keys are the same but for their case, the item of a key is found under all its cases. -/
theorem find_ofList {items : List (CString × Json N)} {key name : CString} {item : Json N}
    (hdistinct : (items.map fun entry => entry.1.lower).Nodup) (hmem : (key, item) ∈ items)
    (hkey : key.lower = name.lower) : (Members.ofList items).find name = some item := by
  induction items with
  | nil => cases hmem
  | cons first items ih =>
      obtain ⟨key', item'⟩ := first
      rw [List.map_cons, List.nodup_cons] at hdistinct
      have hzero : strcasecmp key'.bytes name.bytes = 0 ↔ key'.lower = name.lower :=
        strcasecmp_eq_zero key'.nul name.nul
      rw [Members.ofList, Members.find]
      rcases List.mem_cons.mp hmem with heq | hmem
      · obtain ⟨rfl, rfl⟩ := Prod.mk.inj heq
        rw [if_neg (by simpa using hzero.mpr hkey)]
      · have hne : key'.lower ≠ name.lower := by
          intro heq
          exact hdistinct.1 (List.mem_map.mpr ⟨(key, item), hmem, hkey.trans heq.symm⟩)
        rw [if_pos (mt hzero.mp hne), ih hdistinct.2 hmem]

theorem find_subst (f : N → Json M) (name : CString) (members : Members N) :
    (members.subst f).find name = (members.find name).map (Json.subst f) := by
  match members with
  | .nil => rfl
  | .cons key item next =>
      rw [Members.subst, Members.find, Members.find, find_subst f name next]
      split_ifs <;> rfl

theorem toList_addItemToArray (item : Json N) (elements : Elements N) :
    (addItemToArray item elements).toList = elements.toList ++ [item] := by
  match elements with
  | .nil => rfl
  | .cons first next =>
      rw [addItemToArray, Elements.toList, toList_addItemToArray item next, Elements.toList, List.cons_append]

theorem toList_subst (f : N → Json M) (elements : Elements N) :
    (elements.subst f).toList = elements.toList.map (Json.subst f) := by
  match elements with
  | .nil => rfl
  | .cons first next => rw [Elements.subst, Elements.toList, toList_subst f next, Elements.toList, List.map_cons]

end Find

end ComputerNetworking.CJson
