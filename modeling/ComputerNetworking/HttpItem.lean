import ComputerNetworking.HttpHeader
import ComputerNetworking.Strtok

/-! The newest entry of a feed (`TCP_IP_and_Drgramms/ex7.c`, behind the receiving loops).

The client searches the tags of an item one after the other, each from behind the last one, and cuts off the
text behind a tag with `strtok`, which writes into the document. No loop looks for the end of the document.
The memory is the part of `buffer` that may be read; a loop that leaves it has no result. -/

namespace ComputerNetworking.Http

open Dht PatternScan Strtok

/-! ### The search -/

/-- `<` -/
def bracket : UInt8 := 60

/-- The tag that opens an element. -/
def openTag (name : Bytes) : Bytes := bracket :: (name ++ [62])

/-- What is behind the first character of the tag that closes an element. -/
def closeTail (name : Bytes) : Bytes := 47 :: (name ++ [62])

/-- `item` -/
def itemName : Bytes := [105, 116, 101, 109]

/-- `title` -/
def titleName : Bytes := [116, 105, 116, 108, 101]

/-- `link` -/
def linkName : Bytes := [108, 105, 110, 107]

/-- `description` -/
def descriptionName : Bytes := [100, 101, 115, 99, 114, 105, 112, 116, 105, 111, 110]

/-- `pubDate` -/
def pubDateName : Bytes := [112, 117, 98, 68, 97, 116, 101]

/-- The elements whose tags are searched, in this order. -/
def searchedNames : List Bytes := [itemName, titleName, linkName, descriptionName, pubDateName]

/-- A loop that moves `progress` on to a tag. It goes through the memory once. -/
def findTag (name buffer : Bytes) (progress : Nat) : Option Nat :=
  scan buffer.length (fun i => buffer.getD i 0) (openTag name) (buffer.length + 1) progress

/-- The search for a tag and the text behind it: the pointer to the text, `buffer` and `progress`. -/
def readElement (name buffer : Bytes) (progress : Nat) : Option (Option Nat × Bytes × Nat) :=
  (findTag name buffer progress).bind fun found =>
    let progress := found + (openTag name).length
    (strtok 0 [bracket] ⟨buffer, progress⟩).map fun (text, t) => (text, t.mem, progress)

/-- What is printed of an item; a pointer may be `NULL`. -/
structure Texts where
  title : Option Bytes
  link : Option Bytes
  description : Option Bytes
  date : Option Bytes
  deriving DecidableEq, Repr

/-- What is printed for a pointer into the buffer. -/
def printed (buffer : Bytes) (text : Option Nat) : Option Bytes := text.map (stringFrom 0 buffer)

/-- The end of `get_http`: the texts of the first item. -/
def readItem (buffer : Bytes) : Option Texts :=
  (findTag itemName buffer 0).bind fun progress =>
  (readElement titleName buffer progress).bind fun (title, buffer, progress) =>
  (readElement linkName buffer progress).bind fun (link, buffer, progress) =>
  (readElement descriptionName buffer progress).bind fun (description, buffer, progress) =>
  (readElement pubDateName buffer progress).map fun (date, buffer, _) =>
    ⟨printed buffer title, printed buffer link, printed buffer description, printed buffer date⟩

/-! ### Documents -/

/-- An element as it stands in a document. -/
def element (name content : Bytes) : Bytes := openTag name ++ content ++ bracket :: closeTail name

/-- A document whose first item has the four elements in order, with anything between them in which the next
tag does not occur. -/
structure Item where
  before : Bytes
  gapTitle : Bytes
  title : Bytes
  gapLink : Bytes
  link : Bytes
  gapDescription : Bytes
  description : Bytes
  gapDate : Bytes
  date : Bytes
  after : Bytes
  first : ¬openTag itemName <:+: before
  noTitle : ¬openTag titleName <:+: gapTitle
  noLink : ¬openTag linkName <:+: gapLink
  noDescription : ¬openTag descriptionName <:+: gapDescription
  noDate : ¬openTag pubDateName <:+: gapDate
  clear : ∀ content ∈ [title, link, description, date], bracket ∉ content

namespace Item

def text (item : Item) : Bytes :=
  item.before ++ openTag itemName ++
    (item.gapTitle ++ element titleName item.title) ++ (item.gapLink ++ element linkName item.link) ++
    (item.gapDescription ++ element descriptionName item.description) ++
    (item.gapDate ++ element pubDateName item.date) ++ item.after

def contents (item : Item) : List Bytes := [item.title, item.link, item.description, item.date]

/-- The texts that are to be printed. -/
def texts (item : Item) : Texts :=
  ⟨some item.title, some item.link, some item.description, some item.date⟩

end Item

/-! ### Searching a tag -/

section Tags

variable {name buffer buffer' mid rest : Bytes} {progress progress' : Nat}

/-- A name of an element. -/
def IsName (name : Bytes) : Prop := bracket ∉ name ∧ 0 ∉ name

instance (name : Bytes) : Decidable (IsName name) := inferInstanceAs (Decidable (_ ∧ _))

theorem isName_of_mem {name : Bytes} (h : name ∈ searchedNames) : IsName name := by
  revert name
  unfold searchedNames
  simp only [List.forall_mem_cons]
  decide

theorem IsName.bracket_notMem (h : IsName name) : bracket ∉ name ++ [62] := by
  rw [List.mem_append, not_or]
  exact ⟨h.1, by decide⟩

theorem IsName.zero_notMem (h : IsName name) : 0 ∉ openTag name := by
  rw [openTag, List.mem_cons, List.mem_append, not_or, not_or]
  exact ⟨by decide, h.2, by decide⟩

/-- A tag is found where it first stands. -/
theorem findTag_eq (hname : IsName name) (hmid : ¬openTag name <:+: mid)
    (hbuffer : buffer.drop progress = mid ++ (openTag name ++ rest)) :
    findTag name buffer progress = some (progress + mid.length) := by
  have hlength := congrArg List.length hbuffer
  rw [List.length_drop, List.length_append, List.length_append] at hlength
  have hpos : 0 < (openTag name).length := Nat.succ_pos _
  have hmatch (j : Nat) (hj : j ≤ mid.length) :
      matchAt buffer.length (fun i => buffer.getD i 0) (openTag name) (progress + j) =
        some (decide (OccursAt (openTag name) (buffer.drop progress) j)) := by
    rw [matchAt_eq (l := buffer) (fun i => rfl) hname.zero_notMem (by omega)]
    refine congrArg some (decide_eq_decide.mpr ?_)
    rw [OccursAt, OccursAt, List.drop_drop]
  refine scan_found (Nat.le_add_right _ _) (by omega) (fun j hle hlt => ?_) ?_
  · obtain ⟨k, rfl⟩ := Nat.exists_eq_add_of_le hle
    rw [hmatch k (by omega), hbuffer]
    exact congrArg some (decide_eq_false (not_occursAt_of_lt hname.bracket_notMem hmid (by omega)))
  · rw [hmatch _ le_rfl, hbuffer]
    refine congrArg some (decide_eq_true ?_)
    rw [OccursAt, List.drop_left]
    exact List.prefix_append _ _

/-- The search for a tag that is not there leaves the memory. -/
theorem infix_of_findTag {found : Nat} (h : findTag name buffer progress = some found) :
    openTag name <:+: buffer := by
  by_contra hmissing
  have hnone : findTag name buffer progress = none :=
    scan_eq_none (List.cons_ne_nil _ _) (Nat.succ_pos _) (by omega) fun j hj =>
      hmissing (isInfix_of_occursAt (occursAt_of_matchAt hj))
  rw [h] at hnone
  cases hnone

end Tags

/-! ### Cutting off a text -/

section Elements

variable {name buffer buffer' mid content rest : Bytes} {text : Option Nat} {progress progress' : Nat}

/-- What cutting off a text leaves of the memory: the strings without a bracket, and nothing new but zeros. -/
structure Keeps (buffer buffer' : Bytes) : Prop where
  strings : ∀ i str, StringAt 0 buffer i str → bracket ∉ str → StringAt 0 buffer' i str
  cells : ∀ (j : Nat) (c : UInt8), buffer'[j]? = some c → c ≠ 0 → buffer[j]? = some c

theorem Keeps.trans {buffer'' : Bytes} (h : Keeps buffer buffer') (h' : Keeps buffer' buffer'') :
    Keeps buffer buffer'' where
  strings i str hstr hclear := h'.strings i str (h.strings i str hstr hclear) hclear
  cells j c hj hc := h.cells j c (h'.cells j c hj hc) hc

/-- No tag comes into the memory. -/
theorem Keeps.isInfix {tag : Bytes} (h : Keeps buffer buffer') (htag : 0 ∉ tag) (hwithin : tag <:+: buffer') :
    tag <:+: buffer := by
  obtain ⟨front, back, rfl⟩ := hwithin
  refine isInfix_of_occursAt (i := front.length) (List.prefix_iff_getElem?.mpr fun j hj => ?_)
  rw [List.getElem?_drop]
  refine h.cells _ _ ?_ fun hzero => htag (hzero ▸ List.getElem_mem hj)
  rw [List.append_assoc, List.getElem?_append_right (Nat.le_add_right _ _), Nat.add_sub_cancel_left,
    List.getElem?_append_left hj, List.getElem?_eq_getElem hj]

/-- A text that is cut off: a string of the memory without a bracket that is not empty. -/
def CutOff (buffer : Bytes) (text : Option Nat) : Prop :=
  ∀ i, text = some i → ∃ token, token ≠ [] ∧ bracket ∉ token ∧ StringAt 0 buffer i token

theorem CutOff.keep (h : CutOff buffer text) (hkeeps : Keeps buffer buffer') : CutOff buffer' text := by
  intro i hi
  obtain ⟨token, hne, hclear, hstring⟩ := h i hi
  exact ⟨token, hne, hclear, hkeeps.strings i token hstring hclear⟩

theorem CutOff.printed_ne (h : CutOff buffer text) : printed buffer text ≠ some [] := by
  cases text with
  | none => exact fun heq => nomatch heq
  | some i =>
      obtain ⟨token, hne, -, hstring⟩ := h i rfl
      rw [printed, Option.map_some, hstring.stringFrom]
      exact fun heq => hne (Option.some.inj heq)

theorem of_readElement (h : readElement name buffer progress = some (text, buffer', progress')) :
    openTag name <:+: buffer ∧ Keeps buffer buffer' ∧ CutOff buffer' text := by
  obtain ⟨found, hfound, hrest⟩ := Option.bind_eq_some_iff.mp h
  obtain ⟨⟨token, t⟩, hcall, heq⟩ := Option.map_eq_some_iff.mp hrest
  cases heq
  have hnul : (0 : UInt8) ∉ [bracket] := by decide
  refine ⟨infix_of_findTag hfound, ⟨fun i str hstr hclear => ?_, fun j c => of_strtok_cell hcall⟩, ?_⟩
  · refine hstr.keep (t := ⟨buffer, found + (openTag name).length⟩) hnul (fun c hc hmem => ?_) hcall
    rw [List.mem_singleton] at hmem
    exact hclear (hmem ▸ hc)
  · rintro i rfl
    obtain ⟨token, hne, hclear, hstring⟩ := stringAt_of_strtok hnul hcall
    exact ⟨token, hne, fun hmem => hclear _ hmem (List.mem_singleton_self _), hstring⟩

/-- The text of an element that is not empty is cut off, and the search goes on at the text. -/
theorem readElement_eq (hname : IsName name) (hmid : ¬openTag name <:+: mid) (hne : content ≠ [])
    (hclear : bracket ∉ content) (hnul : 0 ∉ content)
    (hbuffer : buffer.drop progress = mid ++ (openTag name ++ (content ++ bracket :: rest))) :
    ∃ buffer' progress', readElement name buffer progress = some (some progress', buffer', progress') ∧
      Keeps buffer buffer' ∧ StringAt 0 buffer' progress' content ∧
      buffer'.drop progress' = content ++ 0 :: rest := by
  have hfound := findTag_eq hname hmid hbuffer
  have hdrop : buffer.drop (progress + mid.length + (openTag name).length) =
      [] ++ (content ++ bracket :: rest) := drop_skip (drop_skip hbuffer)
  have htoken : ∀ a ∈ content, a ≠ 0 ∧ a ∉ [bracket] := by
    intro a ha
    rw [List.mem_singleton]
    exact ⟨fun heq => hnul (heq ▸ ha), fun heq => hclear (heq ▸ ha)⟩
  have hcall := strtok_eq (t := ⟨buffer, progress + mid.length + (openTag name).length⟩) (by decide) hdrop
    (by simp) hne htoken (.inr (List.mem_singleton_self bracket))
  rw [List.length_nil, Nat.add_zero] at hcall
  have hread : readElement name buffer progress = some (some (progress + mid.length + (openTag name).length),
      buffer.set (progress + mid.length + (openTag name).length + content.length) 0,
      progress + mid.length + (openTag name).length) := by
    rw [readElement, hfound, Option.bind_some]
    exact Option.map_eq_some_iff.mpr ⟨_, hcall, rfl⟩
  have hset := drop_set_skip (d := 0) hdrop
  refine ⟨_, _, hread, (of_readElement hread).2.1, ⟨hnul, rest, ?_⟩, hset⟩
  rw [hset, List.append_assoc]
  rfl

/-- An element behind a gap, in front of what follows. -/
def behind (gap name content rest : Bytes) : Bytes :=
  gap ++ (openTag name ++ (content ++ bracket :: (closeTail name ++ rest)))

theorem readElement_behind {skip gap : Bytes} (hname : IsName name) (hmid : ¬openTag name <:+: skip ++ gap)
    (hne : content ≠ []) (hclear : bracket ∉ content) (hnul : 0 ∉ content)
    (hbuffer : buffer.drop progress = skip ++ behind gap name content rest) :
    ∃ buffer' progress', readElement name buffer progress = some (some progress', buffer', progress') ∧
      Keeps buffer buffer' ∧ StringAt 0 buffer' progress' content ∧
      buffer'.drop progress' = (content ++ 0 :: closeTail name) ++ rest := by
  rw [behind, ← List.append_assoc] at hbuffer
  obtain ⟨buffer', progress', hread, hkeeps, hstring, hdrop⟩ :=
    readElement_eq hname hmid hne hclear hnul hbuffer
  refine ⟨buffer', progress', hread, hkeeps, hstring, ?_⟩
  rw [hdrop, List.append_assoc]
  rfl

/-- What stands between the text that has been cut off and the next tag. -/
theorem bracket_notMem_skip (hname : IsName name) (hclear : bracket ∉ content) :
    bracket ∉ content ++ 0 :: closeTail name := by
  rw [List.mem_append, List.mem_cons, closeTail, List.mem_cons, not_or, not_or, not_or]
  exact ⟨hclear, by decide, by decide, hname.bracket_notMem⟩

/-- The next element is read behind a text that has been cut off. -/
theorem readElement_next {name' content' gap : Bytes} (hname' : IsName name') (hclear' : bracket ∉ content')
    (hname : IsName name) (hgap : ¬openTag name <:+: gap) (hne : content ≠ []) (hclear : bracket ∉ content)
    (hnul : 0 ∉ content)
    (hbuffer : buffer.drop progress = (content' ++ 0 :: closeTail name') ++ behind gap name content rest) :
    ∃ buffer' progress', readElement name buffer progress = some (some progress', buffer', progress') ∧
      Keeps buffer buffer' ∧ StringAt 0 buffer' progress' content ∧
      buffer'.drop progress' = (content ++ 0 :: closeTail name) ++ rest := by
  have hskip : bracket ∉ content' ++ 0 :: closeTail name' := bracket_notMem_skip hname' hclear'
  exact readElement_behind hname (not_isInfix_append hskip hgap) hne hclear hnul hbuffer

end Elements

section Items

variable {buffer : Bytes} {texts : Texts}

/-- A search that ends has met all tags, and no text that it prints is empty. -/
theorem of_readItem (h : readItem buffer = some texts) :
    (∀ name ∈ searchedNames, openTag name <:+: buffer) ∧
      ∀ text ∈ [texts.title, texts.link, texts.description, texts.date], text ≠ some [] := by
  obtain ⟨found, hfound, hrest⟩ := Option.bind_eq_some_iff.mp h
  obtain ⟨⟨title, buffer₁, progress₁⟩, htitle, hrest⟩ := Option.bind_eq_some_iff.mp hrest
  obtain ⟨⟨link, buffer₂, progress₂⟩, hlink, hrest⟩ := Option.bind_eq_some_iff.mp hrest
  obtain ⟨⟨description, buffer₃, progress₃⟩, hdescription, hrest⟩ := Option.bind_eq_some_iff.mp hrest
  obtain ⟨⟨date, buffer₄, progress₄⟩, hdate, rfl⟩ := Option.map_eq_some_iff.mp hrest
  obtain ⟨htag₁, hkeeps₁, hcut₁⟩ := of_readElement htitle
  obtain ⟨htag₂, hkeeps₂, hcut₂⟩ := of_readElement hlink
  obtain ⟨htag₃, hkeeps₃, hcut₃⟩ := of_readElement hdescription
  obtain ⟨htag₄, hkeeps₄, hcut₄⟩ := of_readElement hdate
  have hkeeps₁₂ := hkeeps₁.trans hkeeps₂
  have hzero {name : Bytes} (hname : name ∈ searchedNames) : 0 ∉ openTag name :=
    (isName_of_mem hname).zero_notMem
  constructor
  · unfold searchedNames
    simp only [List.forall_mem_cons]
    refine ⟨infix_of_findTag hfound, htag₁, hkeeps₁.isInfix (hzero (by decide)) htag₂,
      hkeeps₁₂.isInfix (hzero (by decide)) htag₃,
      (hkeeps₁₂.trans hkeeps₃).isInfix (hzero (by decide)) htag₄, by simp⟩
  · simp only [List.forall_mem_cons]
    exact ⟨((hcut₁.keep hkeeps₂).keep (hkeeps₃.trans hkeeps₄)).printed_ne,
      (hcut₂.keep (hkeeps₃.trans hkeeps₄)).printed_ne, (hcut₃.keep hkeeps₄).printed_ne,
      hcut₄.printed_ne, by simp⟩

/-- The title is searched from the tag of the item on. -/
theorem no_title_in_front {gap : Bytes} (hgap : ¬openTag titleName <:+: gap) :
    ¬openTag titleName <:+: openTag itemName ++ gap := by
  have hskip : bracket ∉ itemName ++ [62] := by decide
  rw [openTag, openTag, List.cons_append, List.infix_cons_iff, not_or]
  refine ⟨?_, not_isInfix_append hskip hgap⟩
  simp [titleName, itemName]

theorem readItem_eq (item : Item) (hnul : 0 ∉ item.text) (hne : ∀ content ∈ item.contents, content ≠ [])
    (rest : Bytes) : readItem (item.text ++ 0 :: rest) = some item.texts := by
  have htext : item.text ++ 0 :: rest = item.before ++ (openTag itemName ++
      behind item.gapTitle titleName item.title (behind item.gapLink linkName item.link
        (behind item.gapDescription descriptionName item.description
          (behind item.gapDate pubDateName item.date (item.after ++ 0 :: rest))))) := by
    simp only [Item.text, element, behind, List.append_assoc, List.cons_append]
  have hzero : ∀ content ∈ item.contents, 0 ∉ content := by
    intro content hcontent hmem
    apply hnul
    simp only [Item.contents, List.mem_cons, List.not_mem_nil, or_false] at hcontent
    simp only [Item.text, element, List.mem_append]
    rcases hcontent with rfl | rfl | rfl | rfl <;> simp [hmem]
  have hclear := item.clear
  unfold Item.contents at hne hzero
  simp only [List.forall_mem_cons] at hne hzero hclear
  have hname {name : Bytes} (h : name ∈ searchedNames) : IsName name := isName_of_mem h
  have hwhole := (List.drop_zero (l := item.text ++ 0 :: rest)).trans htext
  have hfound := findTag_eq (hname (by decide)) item.first hwhole
  have hstart := drop_skip hwhole
  obtain ⟨buffer₁, progress₁, hread₁, -, hstring₁, hdrop₁⟩ := readElement_behind (hname (by decide))
    (no_title_in_front item.noTitle) hne.1 hclear.1 hzero.1 hstart
  obtain ⟨buffer₂, progress₂, hread₂, hkeeps₂, hstring₂, hdrop₂⟩ := readElement_next (hname (by decide))
    hclear.1 (hname (by decide)) item.noLink hne.2.1 hclear.2.1 hzero.2.1 hdrop₁
  obtain ⟨buffer₃, progress₃, hread₃, hkeeps₃, hstring₃, hdrop₃⟩ := readElement_next (hname (by decide))
    hclear.2.1 (hname (by decide)) item.noDescription hne.2.2.1 hclear.2.2.1 hzero.2.2.1 hdrop₂
  obtain ⟨buffer₄, progress₄, hread₄, hkeeps₄, hstring₄, -⟩ := readElement_next (hname (by decide))
    hclear.2.2.1 (hname (by decide)) item.noDate hne.2.2.2.1 hclear.2.2.2.1 hzero.2.2.2.1 hdrop₃
  have htitle := (hkeeps₂.trans (hkeeps₃.trans hkeeps₄)).strings _ _ hstring₁ hclear.1
  have hlink := (hkeeps₃.trans hkeeps₄).strings _ _ hstring₂ hclear.2.1
  have hdescription := hkeeps₄.strings _ _ hstring₃ hclear.2.2.1
  refine Option.bind_eq_some_iff.mpr ⟨_, hfound, Option.bind_eq_some_iff.mpr ⟨_, hread₁,
    Option.bind_eq_some_iff.mpr ⟨_, hread₂, Option.bind_eq_some_iff.mpr ⟨_, hread₃,
    Option.map_eq_some_iff.mpr ⟨_, hread₄, ?_⟩⟩⟩⟩⟩
  simp only [printed, Option.map_some, htitle.stringFrom, hlink.stringFrom, hdescription.stringFrom,
    hstring₄.stringFrom]
  rfl

/-- A document of which a tag is missing is left by the search. -/
theorem readItem_eq_none {doc : Bytes} (hmissing : ∃ name ∈ searchedNames, ¬openTag name <:+: doc) :
    readItem (doc ++ [0]) = none := by
  obtain ⟨name, hname, hmissing⟩ := hmissing
  cases hread : readItem (doc ++ [0]) with
  | none => rfl
  | some texts =>
      have htag := (of_readItem hread).1 name hname
      rcases List.infix_concat_iff.mp htag with hsuffix | hwithin
      · -- a tag does not end with the final zero
        obtain ⟨front, hfront⟩ := hsuffix
        rw [openTag, ← List.cons_append, ← List.append_assoc] at hfront
        have hlast := (List.append_singleton_inj.mp hfront).2
        exact absurd hlast (by decide)
      · exact absurd hwithin hmissing

end Items

/-- **The texts of the newest entry.** If the first item of a document has the four elements in order, then
exactly their contents are printed, whatever is behind the document and whether or not it may be read,
exactly if none of the contents is empty. If one of the tags is not in the document, then the search never
ends within the document. -/
theorem item_texts_iff (doc rest : Bytes) (hnul : 0 ∉ doc) :
    (∀ item : Item, item.text = doc → ∀ limit, doc.length < limit →
      (readItem ((doc ++ 0 :: rest).take limit) = some item.texts ↔ ∀ content ∈ item.contents, content ≠ [])) ∧
    ((∃ name ∈ searchedNames, ¬openTag name <:+: doc) →
      readItem ((doc ++ 0 :: rest).take (doc.length + 1)) = none) := by
  have htake {limit : Nat} (hlimit : doc.length < limit) :
      (doc ++ 0 :: rest).take limit = doc ++ 0 :: rest.take (limit - doc.length - 1) := by
    rw [List.take_append, List.take_of_length_le hlimit.le]
    congr 1
    obtain ⟨n, hn⟩ : ∃ n, limit - doc.length = n + 1 := ⟨limit - doc.length - 1, by omega⟩
    rw [hn, List.take_succ_cons, Nat.add_sub_cancel]
  refine ⟨?_, fun hmissing => ?_⟩
  · rintro item rfl limit hlimit
    rw [htake hlimit]
    refine ⟨fun hread => ?_, fun hne => readItem_eq item hnul hne _⟩
    have hprinted := (of_readItem hread).2
    simpa [Item.texts, Item.contents] using hprinted
  · rw [htake (Nat.lt_succ_self _), Nat.sub_sub, Nat.sub_self, List.take_zero]
    exact readItem_eq_none hmissing

/-- An item with these contents and nothing else. -/
def plainItem (title : Bytes) (htitle : bracket ∉ title) : Item where
  before := []
  gapTitle := []
  title := title
  gapLink := []
  link := [98]
  gapDescription := []
  description := [99]
  gapDate := []
  date := [100]
  after := []
  first := by decide
  noTitle := by decide
  noLink := by decide
  noDescription := by decide
  noDate := by decide
  clear := List.forall_mem_cons.mpr ⟨htitle, by decide⟩

theorem item_texts_iff_plain :
    readItem ((plainItem [97] (by decide)).text ++ [0]) =
      some ⟨some [97], some [98], some [99], some [100]⟩ ∧ readItem [0] = none := by
  have hfull := item_texts_iff (plainItem [97] (by decide)).text [] (by decide)
  have hempty := item_texts_iff [] [] List.not_mem_nil
  refine ⟨?_, hempty.2 ⟨itemName, by decide, by decide⟩⟩
  have hiff := hfull.1 _ rfl _ (Nat.lt_succ_self _)
  rw [List.take_of_length_le (by simp)] at hiff
  exact hiff.mpr (by decide)

/-- With an empty title the client takes the tag that closes it for the title, and the search for the link,
whose bracket has been overwritten, leaves the document. The document `a` has no tag at all. -/
theorem empty_title_is_lost :
    (readElement titleName ((plainItem [] (by decide)).text ++ [0]) 0).map (fun (text, buffer, _) =>
      printed buffer text) = some (some (closeTail titleName)) ∧
    readItem ((plainItem [] (by decide)).text ++ [0]) = none ∧ readItem [97, 0] = none ∧
    (¬∀ (item : Item) (rest : Bytes), 0 ∉ item.text → readItem (item.text ++ 0 :: rest) = some item.texts) ∧
    ¬∀ doc rest : Bytes, 0 ∉ doc → (∃ name ∈ searchedNames, ¬openTag name <:+: doc) →
      (readItem ((doc ++ 0 :: rest).take (doc.length + 1))).isSome = true := by
  have hlost : readItem ((plainItem [] (by decide)).text ++ [0]) = none := by decide
  refine ⟨by decide, hlost, by decide, fun hall => ?_, fun hall => ?_⟩
  · have hfound := hall (plainItem [] (by decide)) [] (by decide)
    rw [hlost] at hfound
    cases hfound
  · have hends := hall [97] [] (by decide) ⟨itemName, by decide, by decide⟩
    revert hends
    decide

end ComputerNetworking.Http
