import ComputerNetworking.CJsonRoundTrip
import ComputerNetworking.FilmIds
import Mathlib.Data.List.Forall2

/-! The JSON texts of the movie server: films that are parsed and the views of films that GET returns (`film.c`,
`block5.c`).

The parameter of the database for what the JSON library finds is the library of the server here. The other headers
of a response are left out. -/

namespace ComputerNetworking.Movies

open Dht Transition
open CJson (CString Members Elements getObjectItem addItemToObject addItemToArray addStringToObject)

/-- The bytes of a text. -/
def bytesOf (text : String) : Bytes := text.toList.flatMap String.utf8EncodeChar

/-- What a function of C reads at a pointer to bytes. -/
def cstring (bytes : Bytes) : CString where
  bytes := bytes.takeWhile (· ≠ 0)
  nul := by
    intro hmem
    have hne := List.mem_takeWhile_imp hmem
    simp at hne

/-- The string of an item of an object, if it has one. -/
def readString {N : Type} (root : CJson.Json N) (name : String) : Option Bytes :=
  (getObjectItem root (cstring (bytesOf name))).bind fun field => field.valuestring.map CString.bytes

/-- What `parse_film` finds with the JSON library. -/
def cjson : Json := fun s name => (CJson.parse s).bind fun root => readString root name

/-! ### Views -/

/-- `view_type`. -/
inductive View where
  | compact
  | full
  deriving DecidableEq, Repr

/-- `film_json_view`. -/
def filmJsonView (f : Film) (id : Bytes) (view : View) : CJson.Json Empty :=
  let field (i : Nat) (obj : Members Empty) : Members Empty :=
    addStringToObject (cstring (bytesOf (fieldNames.getD i ""))) (cstring (f.fields.getD i [])) obj
  let obj :=
    match view with
    | .compact => field filmTitle .nil
    | .full => (List.range fieldNames.length).foldl (fun obj i => field i obj) .nil
  .object (addStringToObject (cstring (bytesOf "href")) (cstring id) obj)

/-- What `response_write_json` writes. -/
def responseWriteJson (obj : CJson.Json Empty) : Bytes := CJson.print Empty.elim obj

/-- What `film_resource_get` writes. -/
def filmResourceGet (fullPath : String) (f : Film) : Bytes :=
  responseWriteJson (filmJsonView f (bytesOf (baseUrl ++ fullPath)) .full)

/-- `MAX_ID_LEN`. -/
def maxIdLen : Nat := 10

/-- `snprintf` into a buffer of `size` bytes. -/
def snprintf (size : Nat) (text : Bytes) : Bytes := text.take (size - 1)

/-- What `list_films` writes. -/
def listFilmsText (db : Database) (fullpath : String) : Bytes :=
  let collectionHref := bytesOf (baseUrl ++ fullpath)
  let items := (List.range db.curFilms).foldl (fun items i =>
    match db.films.getD i none with
    | none => items
    | some f =>
        let filmHref := snprintf (collectionHref.length + maxIdLen + 1) (collectionHref ++ bytesOf ("/" ++ toString i))
        addItemToArray (filmJsonView f filmHref .compact) items) .nil
  responseWriteJson (.object (addStringToObject (cstring (bytesOf "href")) (cstring collectionHref)
    (addItemToObject (cstring (bytesOf "items")) (.array items) .nil)))

/-! ### A film from the members of an object -/

theorem mapM_eq_some_iff {α β : Type*} {f : α → Option β} {l : List α} {values : List β} :
    l.mapM f = some values ↔ List.Forall₂ (fun a b => f a = some b) l values := by
  induction l generalizing values with
  | nil =>
      rw [List.mapM_nil, List.forall₂_nil_left_iff]
      exact ⟨fun h => (Option.some.inj h).symm, fun h => congrArg some h.symm⟩
  | cons a l ih =>
      rw [List.mapM_cons, List.forall₂_cons_left_iff]
      constructor
      · intro h
        obtain ⟨b, hb, h⟩ := Option.bind_eq_some_iff.mp h
        obtain ⟨rest, hrest, h⟩ := Option.bind_eq_some_iff.mp h
        exact ⟨b, rest, hb, ih.mp hrest, (Option.some.inj h).symm⟩
      · intro ⟨b, rest, hb, hrest, hvalues⟩
        rw [hb, ih.mpr hrest, hvalues]
        rfl

section Parse

variable {N : Type} {printNumber : N → Bytes}

/-- The keys of an object are different even without regard to case, and each field of a film is among them with a
string. -/
structure HasFields (items : List (CString × CJson.Json N)) (fields : List CString) : Prop where
  distinct : (items.map fun item => item.1.lower).Nodup
  found : List.Forall₂ (fun name value => ∃ key : CString,
    (key, CJson.Json.string value) ∈ items ∧ key.lower = (cstring (bytesOf name)).lower) fieldNames fields

theorem readString_object {items : List (CString × CJson.Json N)} {key value : CString} {name : String}
    (hdistinct : (items.map fun item => item.1.lower).Nodup) (hmem : (key, CJson.Json.string value) ∈ items)
    (hkey : key.lower = (cstring (bytesOf name)).lower) :
    readString (.object (Members.ofList items)) name = some value.bytes := by
  rw [readString, getObjectItem, CJson.find_ofList hdistinct hmem hkey]
  rfl

/-- Numbers do not matter for strings. -/
theorem readString_subst (root : CJson.Json N) (name : String) :
    readString (root.subst (CJson.reread printNumber)) name = readString root name := by
  have hnumber : ∀ value : N, (CJson.reread printNumber value).valuestring = none ∧
      readString (CJson.reread printNumber value) name = none := by
    intro value
    unfold CJson.reread
    split_ifs
    · exact ⟨rfl, rfl⟩
    · exact ⟨rfl, rfl⟩
  have hitem : ∀ item : CJson.Json N, (item.subst (CJson.reread printNumber)).valuestring = item.valuestring := by
    intro item
    cases item with
    | number value => exact (hnumber value).1
    | null | false | true | string | array | object => rfl
  cases root with
  | object members =>
      rw [readString, CJson.Json.subst, getObjectItem, CJson.find_subst, Option.bind_map, readString, getObjectItem]
      refine Option.bind_congr fun item _ => ?_
      rw [Function.comp_apply, hitem]
  | number value => exact (hnumber value).2
  | null | false | true | string | array => rfl

theorem parse_printValue (hnumber : ∀ n, CJson.WritesNumber (printNumber n)) (fmt : Bool) (item : CJson.Json N) :
    CJson.parse (CJson.printValue printNumber fmt 0 item) = some (item.subst (CJson.reread printNumber)) := by
  rw [CJson.parse, CJson.parseWithOpts_printValue fmt hnumber]
  rfl

/-- **The order and the case of members.** From the text of an object a film is parsed with the strings of its fields,
in whatever order they stand, with their keys in whatever case, and among whatever other members. -/
theorem parseFilm_object (hnumber : ∀ n, CJson.WritesNumber (printNumber n)) (fmt : Bool)
    (items : List (CString × CJson.Json N)) (fields : List CString) (h : HasFields items fields) :
    parseFilm cjson (CJson.printValue printNumber fmt 0 (.object (Members.ofList items))) =
      (0, some ⟨fields.map CString.bytes⟩) := by
  have hfields : fieldNames.mapM (cjson (CJson.printValue printNumber fmt 0 (.object (Members.ofList items)))) =
      some (fields.map CString.bytes) := by
    rw [mapM_eq_some_iff, List.forall₂_map_right_iff]
    refine h.found.imp ?_
    intro name value ⟨key, hmem, hkey⟩
    rw [cjson, parse_printValue hnumber, Option.bind_some, readString_subst, readString_object h.distinct hmem hkey]
  rw [parseFilm, hfields]

end Parse

/-- The members in the opposite order, with a key in capital letters and a number. -/
theorem parseFilm_object_capitals :
    parseFilm cjson (CJson.printValue CJson.printInt false 0 (.object (Members.ofList [
      (cstring (bytesOf "Actors"), .string (cstring [102])), (cstring (bytesOf "director"), .string (cstring [101])),
      (cstring (bytesOf "id"), .number 7), (cstring (bytesOf "LENGTH"), .string (cstring [100])),
      (cstring (bytesOf "productionYear"), .string (cstring [99])),
      (cstring (bytesOf "originalTitle"), .string (cstring [98])),
      (cstring (bytesOf "title"), .string (cstring [97]))]))) =
        (0, some ⟨[[97], [98], [99], [100], [101], [102]]⟩) := by
  refine parseFilm_object (fun n => .inl (CJson.isNumeral_printInt n)) false _
    [cstring [97], cstring [98], cstring [99], cstring [100], cstring [101], cstring [102]] ⟨?_, ?_⟩
  · have hkeys : (["Actors", "director", "id", "LENGTH", "productionYear", "originalTitle", "title"].map
        fun name => (cstring (bytesOf name)).lower).Nodup := by decide +kernel
    exact hkeys
  · refine .cons ⟨cstring (bytesOf "title"), ?_, rfl⟩ (.cons ⟨cstring (bytesOf "originalTitle"), ?_, rfl⟩
      (.cons ⟨cstring (bytesOf "productionYear"), ?_, rfl⟩ (.cons ⟨cstring (bytesOf "LENGTH"), ?_, by decide +kernel⟩
        (.cons ⟨cstring (bytesOf "director"), ?_, rfl⟩ (.cons ⟨cstring (bytesOf "Actors"), ?_, by decide +kernel⟩
          .nil))))) <;> simp

/-! ### The views of the films of the database -/

/-- A film with a string for each field. -/
def Film.Sound (f : Film) : Prop :=
  ∃ title originalTitle productionYear length director actors : CString,
    f.fields = [title, originalTitle, productionYear, length, director, actors].map CString.bytes

theorem cstring_bytes (str : CString) : cstring str.bytes = str := by
  obtain ⟨bytes, hnul⟩ := str
  have htake : ∀ c ∈ bytes, c ≠ 0 := fun c hc heq => hnul (heq ▸ hc)
  simpa [cstring] using htake

theorem parseFilm_sound {data : Bytes} {f : Film} (h : (parseFilm cjson data).2 = some f) : f.Sound := by
  unfold parseFilm at h
  cases hfields : fieldNames.mapM (cjson data) with
  | none =>
      rw [hfields] at h
      cases h
  | some fields =>
      rw [hfields] at h
      obtain rfl : (⟨fields⟩ : Film) = f := Option.some.inj h
      have hstring : ∀ name bytes, cjson data name = some bytes → ∃ str : CString, str.bytes = bytes := by
        intro name bytes hname
        obtain ⟨root, -, hname⟩ := Option.bind_eq_some_iff.mp hname
        obtain ⟨item, -, hname⟩ := Option.bind_eq_some_iff.mp hname
        obtain ⟨str, -, hstr⟩ := Option.map_eq_some_iff.mp hname
        exact ⟨str, hstr⟩
      have hforall := mapM_eq_some_iff.mp hfields
      simp only [fieldNames, List.forall₂_cons_left_iff, List.forall₂_nil_left_iff] at hforall
      obtain ⟨b₁, _, h₁, ⟨b₂, _, h₂, ⟨b₃, _, h₃, ⟨b₄, _, h₄, ⟨b₅, _, h₅, ⟨b₆, _, h₆, rfl, rfl⟩, rfl⟩, rfl⟩, rfl⟩, rfl⟩,
        rfl⟩ := hforall
      obtain ⟨s₁, rfl⟩ := hstring _ _ h₁
      obtain ⟨s₂, rfl⟩ := hstring _ _ h₂
      obtain ⟨s₃, rfl⟩ := hstring _ _ h₃
      obtain ⟨s₄, rfl⟩ := hstring _ _ h₄
      obtain ⟨s₅, rfl⟩ := hstring _ _ h₅
      obtain ⟨s₆, rfl⟩ := hstring _ _ h₆
      exact ⟨s₁, s₂, s₃, s₄, s₅, s₆, rfl⟩

/-- The members of the full view of a film. -/
theorem filmJsonView_full {f : Film} {s₁ s₂ s₃ s₄ s₅ s₆ : CString}
    (hfields : f.fields = [s₁, s₂, s₃, s₄, s₅, s₆].map CString.bytes) (id : Bytes) :
    filmJsonView f id .full = .object (Members.ofList [
      (cstring (bytesOf "title"), .string s₁), (cstring (bytesOf "originalTitle"), .string s₂),
      (cstring (bytesOf "productionYear"), .string s₃), (cstring (bytesOf "length"), .string s₄),
      (cstring (bytesOf "director"), .string s₅), (cstring (bytesOf "actors"), .string s₆),
      (cstring (bytesOf "href"), .string (cstring id))]) := by
  rw [← cstring_bytes s₁, ← cstring_bytes s₂, ← cstring_bytes s₃, ← cstring_bytes s₄, ← cstring_bytes s₅,
    ← cstring_bytes s₆, filmJsonView, hfields]
  rfl

/-- The full view of a film is parsed to the film. -/
theorem Film.Sound.parse_view {f : Film} (h : f.Sound) (fullPath : String) :
    parseFilm cjson (filmResourceGet fullPath f) = (0, some f) := by
  obtain ⟨s₁, s₂, s₃, s₄, s₅, s₆, hfields⟩ := h
  rw [filmResourceGet, responseWriteJson, CJson.print, filmJsonView_full hfields]
  have hfilm : (⟨[s₁, s₂, s₃, s₄, s₅, s₆].map CString.bytes⟩ : Film) = f := by rw [← hfields]
  rw [← hfilm]
  refine parseFilm_object nofun true _ _ ⟨?_, ?_⟩
  · have hkeys : (["title", "originalTitle", "productionYear", "length", "director", "actors", "href"].map
        fun name => (cstring (bytesOf name)).lower).Nodup := by decide +kernel
    exact hkeys
  · refine .cons ⟨_, ?_, rfl⟩ (.cons ⟨_, ?_, rfl⟩ (.cons ⟨_, ?_, rfl⟩ (.cons ⟨_, ?_, rfl⟩ (.cons ⟨_, ?_, rfl⟩
      (.cons ⟨_, ?_, rfl⟩ .nil))))) <;> simp

/-! ### The list of the films -/

/-- What a client reads in the list: the title and the location of each item. -/
def readList (body : Bytes) : Option (List (Option Bytes × Option Bytes)) :=
  (CJson.parse body).bind fun root =>
    (getObjectItem root (cstring (bytesOf "items"))).bind fun items =>
      match items with
      | .array elements => some (elements.toList.map fun item => (readString item "title", readString item "href"))
      | _ => none

section List

theorem bytesOf_append (s t : String) : bytesOf (s ++ t) = bytesOf s ++ bytesOf t := by
  rw [bytesOf, String.toList_append, List.flatMap_append, bytesOf, bytesOf]

theorem bytesOf_nul {text : String} (h : '\x00' ∉ text.toList) : (0 : UInt8) ∉ bytesOf text := by
  intro hmem
  obtain ⟨c, hc, hbyte⟩ := List.mem_flatMap.mp hmem
  rw [← CJson.encodeUtf8_toNat] at hbyte
  have hmax : c.toNat < 0x110000 := by
    rcases c.valid with hvalid | hvalid
    · exact hvalid.trans (by decide)
    · exact hvalid.2
  refine CJson.encodeUtf8_nul ?_ hmax hbyte
  intro hzero
  have hchar : c = '\x00' := by rw [← Char.ofNat_toNat c, hzero]
  exact h (hchar ▸ hc)

/-- An id of the database is not cut off in a location. -/
theorem bytesOf_id_length {i : Nat} (h : i < maxFilms) : (bytesOf ("/" ++ toString i)).length ≤ maxIdLen := by
  have hdigits : ∀ cs : List Char, (∀ c ∈ cs, c.isDigit = true) →
      (cs.flatMap String.utf8EncodeChar).length = cs.length := by
    intro cs hcs
    induction cs with
    | nil => rfl
    | cons c cs ih =>
        have hdigit := hcs c List.mem_cons_self
        rw [Char.isDigit_iff_toNat, show '0'.toNat = 48 from rfl, show '9'.toNat = 57 from rfl] at hdigit
        have hsize : c.utf8Size = 1 :=
          Char.utf8Size_eq_one_iff.mpr (UInt32.le_iff_toNat_le.mpr (hdigit.2.trans (by decide)))
        rw [List.flatMap_cons, List.length_append, String.length_utf8EncodeChar, hsize, List.length_cons,
          ih fun d hd => hcs d (List.mem_cons_of_mem c hd), Nat.add_comm]
  have htext : (toString i).toList = Nat.toDigits 10 i := Nat.toList_repr
  have hlen : (Nat.toDigits 10 i).length ≤ 3 := (Nat.length_toDigits_le_iff (by decide) (by decide)).mpr h
  have hslash : bytesOf "/" = [47] := by decide
  rw [bytesOf_append, hslash, List.length_append, List.length_singleton, bytesOf, htext, hdigits _ fun c hc =>
    Nat.isDigit_of_mem_toDigits (by decide) (by decide) hc, maxIdLen]
  omega

theorem snprintf_filmHref {i : Nat} (h : i < maxFilms) (fullpath : String) :
    snprintf ((bytesOf (baseUrl ++ fullpath)).length + maxIdLen + 1)
      (bytesOf (baseUrl ++ fullpath) ++ bytesOf ("/" ++ toString i)) = bytesOf (filmHref fullpath i) := by
  have hlen := bytesOf_id_length h
  have htext : filmHref fullpath i = baseUrl ++ fullpath ++ ("/" ++ toString i) := by
    rw [filmHref, String.append_assoc]
  rw [snprintf, htext, bytesOf_append (baseUrl ++ fullpath), List.take_of_length_le]
  rw [List.length_append]
  omega

theorem filmHref_nul {fullpath : String} (h : '\x00' ∉ fullpath.toList) (i : Nat) :
    '\x00' ∉ (filmHref fullpath i).toList := by
  have hdigit : '\x00' ∉ (toString i).toList := by
    intro hmem
    have htext : (toString i).toList = Nat.toDigits 10 i := Nat.toList_repr
    have hisDigit := Nat.isDigit_of_mem_toDigits (by decide) (by decide) (htext ▸ hmem)
    exact absurd hisDigit (by decide)
  simp only [filmHref, String.toList_append, List.mem_append, not_or]
  exact ⟨⟨⟨by decide, h⟩, by decide⟩, hdigit⟩

theorem toList_foldl (g : Nat → Option Film) (view : Nat → Film → CJson.Json Empty) (ids : List Nat)
    (items : Elements Empty) :
    (ids.foldl (fun items i =>
      match g i with
      | none => items
      | some f => addItemToArray (view i f) items) items).toList =
      items.toList ++ ids.filterMap fun i => (g i).map (view i) := by
  induction ids generalizing items with
  | nil => simp
  | cons i ids ih =>
      rw [List.foldl_cons, ih, List.filterMap_cons]
      cases g i with
      | none => rfl
      | some f =>
          rw [Option.map_some, CJson.toList_addItemToArray, List.append_assoc]
          rfl

end List

/-! ### Every run of the server -/

/-- All films of the database have a string for each field. -/
structure DatabaseSound (db : Database) : Prop where
  shape : DatabaseShape db
  sound : ∀ f, some f ∈ db.films → f.Sound

section Runs

variable {db next : Database} {requests : List UrlRequest}

theorem DatabaseSound.set (h : DatabaseSound db) {i : Nat} {slot : Option Film} (hshape : DatabaseShape next)
    (hfilms : next.films = db.films.set i slot) (hslot : ∀ f, slot = some f → f.Sound) : DatabaseSound next := by
  refine ⟨hshape, fun f hf => ?_⟩
  rw [hfilms] at hf
  rcases List.mem_or_eq_of_mem_set hf with hmem | heq
  · exact h.sound f hmem
  · exact hslot f heq.symm

theorem DatabaseSound.served (h : DatabaseSound db) {req : UrlRequest} (hserved : Served cjson db req next) :
    DatabaseSound next := by
  have hshape := h.shape.served hserved
  rcases hserved.cases with ⟨rfl, -⟩ | ⟨fullpath, data, response, -, hadd⟩ | ⟨fullpath, data, -, rfl⟩ |
    ⟨id, getIndex, deleteIndex, data, f, -, -, hupdate⟩ | ⟨id, getIndex, deleteIndex, data, f, -, -, rfl⟩
  · exact h
  · rcases h.shape.addFilm_cases hadd with ⟨rfl, -⟩ | ⟨f, hparse, -, hadd, -⟩
    · exact h
    · obtain ⟨-, rfl⟩ := dbAdd_eq_some_iff.mp hadd
      refine h.set hshape rfl fun g hg => ?_
      cases hg
      exact parseFilm_sound hparse
  · refine ⟨hshape, fun f hf => ?_⟩
    have hnone := List.eq_of_mem_replicate hf
    cases hnone
  · obtain ⟨i, -, -, -, hfilms, -⟩ := h.shape.update_cases hupdate
    exact h.set hshape hfilms fun g hg => parseFilm_sound hg
  · cases hget : dbGet db (scanIndex deleteIndex id) with
    | none =>
        rw [dbDelete_eq_self hget]
        exact h
    | some g =>
        obtain ⟨i, hi, hlive⟩ := exists_live_of_dbGet hget
        rw [hi, dbDelete_of_live hlive] at hshape ⊢
        exact h.set hshape rfl nofun

theorem databaseSound_of_run (hrun : Run (Served cjson) dbCreate requests db) : DatabaseSound db := by
  refine hrun.invariant (fun _ _ _ hsound hserved => hsound.served hserved) ⟨databaseShape_dbCreate, fun f hf => ?_⟩
  have hnone := List.eq_of_mem_replicate hf
  cases hnone

theorem DatabaseSound.live (h : DatabaseSound db) {i : Nat} {f : Film} (hlive : Live db i f) : f.Sound :=
  h.sound f (List.mem_of_getElem? hlive.2)

/-- The title and the location that are read in an item of the list. -/
theorem readString_compact {f : Film} (h : f.Sound) (id : CString) :
    readString (filmJsonView f id.bytes .compact) "title" = some f.title ∧
      readString (filmJsonView f id.bytes .compact) "href" = some id.bytes := by
  obtain ⟨title, originalTitle, productionYear, length, director, actors, hfields⟩ := h
  have htitle : f.title = title.bytes := by rw [Film.title, hfields]; rfl
  have hview : filmJsonView f id.bytes .compact = .object (Members.ofList
      [(cstring (bytesOf "title"), .string (cstring title.bytes)),
        (cstring (bytesOf "href"), .string (cstring id.bytes))]) := by
    rw [filmJsonView, hfields]
    rfl
  rw [cstring_bytes, cstring_bytes] at hview
  have hdistinct : ([cstring (bytesOf "title"), cstring (bytesOf "href")].map CString.lower).Nodup := by decide +kernel
  rw [hview, htitle]
  exact ⟨readString_object hdistinct (List.mem_cons_self) rfl,
    readString_object hdistinct (List.mem_cons_of_mem _ List.mem_cons_self) rfl⟩

theorem readList_listFilmsText (h : DatabaseSound db) {fullpath : String} (hnul : '\x00' ∉ fullpath.toList) :
    readList (listFilmsText db fullpath) =
      some ((listFilms db fullpath).map fun (title, href) => (some title, some (bytesOf href))) := by
  have hroot : ∀ items : Elements Empty, readList (responseWriteJson (.object
      (addStringToObject (cstring (bytesOf "href")) (cstring (bytesOf (baseUrl ++ fullpath)))
        (addItemToObject (cstring (bytesOf "items")) (.array items) .nil)))) =
      some (items.toList.map fun item => (readString item "title", readString item "href")) := by
    intro items
    have hmembers : addStringToObject (cstring (bytesOf "href")) (cstring (bytesOf (baseUrl ++ fullpath)))
        (addItemToObject (cstring (bytesOf "items")) (.array items) .nil) = Members.ofList
          [(cstring (bytesOf "items"), .array items),
            (cstring (bytesOf "href"), .string (cstring (bytesOf (baseUrl ++ fullpath))))] := rfl
    have hdistinct : ([cstring (bytesOf "items"), cstring (bytesOf "href")].map CString.lower).Nodup := by
      decide +kernel
    have hfind : getObjectItem (.object (Members.ofList [(cstring (bytesOf "items"), .array items),
        (cstring (bytesOf "href"), .string (cstring (bytesOf (baseUrl ++ fullpath))))]))
        (cstring (bytesOf "items")) = some (CJson.Json.array items) :=
      CJson.find_ofList hdistinct List.mem_cons_self rfl
    rw [readList, responseWriteJson, CJson.print, parse_printValue nofun, Option.bind_some, CJson.Json.subst,
      getObjectItem, CJson.find_subst, hmembers]
    rw [getObjectItem] at hfind
    rw [hfind, Option.map_some, Option.bind_some]
    dsimp only [CJson.Json.subst]
    rw [CJson.toList_subst, List.map_map]
    refine congrArg some (List.map_congr_left fun item _ => ?_)
    rw [Function.comp_apply, readString_subst, readString_subst]
  rw [listFilmsText, hroot, toList_foldl (fun i => db.films.getD i none), listFilms, Elements.toList, List.nil_append,
    List.map_filterMap, List.map_filterMap]
  refine congrArg some (List.filterMap_congr fun i hi => ?_)
  have hroom : i < maxFilms := (List.mem_range.mp hi).trans_le h.shape.curLe
  cases hslot : db.films.getD i none with
  | none => rfl
  | some f =>
      have hlive : Live db i f := live_of_dbGet (by
        rw [dbGet, if_neg (by have := List.mem_range.mp hi; omega), Int.toNat_natCast, hslot])
      obtain ⟨htitle, hhref⟩ := readString_compact (h.live hlive) ⟨_, bytesOf_nul (filmHref_nul hnul i)⟩
      simp only [Option.map_some, snprintf_filmHref hroom, htitle, hhref]

end Runs

/-! ### From views back to films -/

section Restore

variable {db : Database}

/-- The films of the database in the order of their ids. -/
def liveFilms (db : Database) : List Film := (List.range db.curFilms).filterMap fun i => db.films.getD i none

theorem mem_liveFilms {f : Film} (h : f ∈ liveFilms db) : ∃ i, Live db i f := by
  obtain ⟨i, hi, hslot⟩ := List.mem_filterMap.mp h
  rw [List.mem_range] at hi
  refine ⟨i, live_of_dbGet ?_⟩
  rw [dbGet, if_neg (by omega), Int.toNat_natCast, hslot]

theorem liveFilms_length (db : Database) : (liveFilms db).length ≤ db.curFilms := by
  have hlen := List.length_filterMap_le (fun i => db.films.getD i none) (List.range db.curFilms)
  rwa [List.length_range] at hlen

/-- What a POST of a film with a new title does. -/
theorem DatabaseShape.post (h : DatabaseShape db) (hroom : db.curFilms < maxFilms) {data : Bytes} {f : Film}
    (hparse : parseFilm cjson data = (0, some f)) (hnew : dbContains db f.title = false) (fullpath : String) :
    ∃ next, handleUrl cjson db (.collection .post fullpath data) =
        some (next, .created (filmHref fullpath db.curFilms)) ∧
      liveFilms next = liveFilms db ++ [f] ∧ next.curFilms = db.curFilms + 1 ∧
      ∀ title, dbContains next title = true → title = f.title ∨ dbContains db title = true := by
  obtain ⟨next, hadd⟩ : ∃ next, dbAdd db f.title f = some next := ⟨_, dbAdd_eq_some_iff.mpr ⟨hroom, rfl⟩⟩
  obtain ⟨-, hnext⟩ := dbAdd_eq_some_iff.mp hadd
  have hmap : next.idMap.bindings sizeHash =
      Function.update (db.idMap.bindings sizeHash) f.title (some (bytesOfInt db.curFilms)) := by
    rw [hnext]
    exact (htSetValue_spec h.wf f.title _).2.1
  have hid : dbGetId next f.title = some (db.curFilms : Int) :=
    dbGetId_eq (h.lt le_rfl) (by rw [hmap]; exact Function.update_self _ _ _)
  refine ⟨next, ?_, ?_, by rw [hnext], ?_⟩
  · rw [handleUrl, filmCollection, addFilm, hparse]
    dsimp only
    rw [if_neg (by decide), hnew, if_neg Bool.false_ne_true, hadd, Option.bind_some, hid]
    rfl
  · have hcur : db.curFilms < db.films.length := by rw [h.array]; exact hroom
    rw [hnext, liveFilms, liveFilms, List.range_succ, List.filterMap_append]
    refine congrArg₂ (· ++ ·) (List.filterMap_congr fun i hi => ?_) ?_
    · rw [List.mem_range] at hi
      rw [List.getD_eq_getElem?_getD, List.getElem?_set_ne (by omega), List.getD_eq_getElem?_getD]
    · rw [List.filterMap_cons, List.getD_eq_getElem?_getD, List.getElem?_set_self hcur]
      rfl
  · intro title htitle
    obtain ⟨bytes, hbytes⟩ := (dbContains_iff next title).mp htitle
    rw [hmap, Function.update_apply] at hbytes
    split_ifs at hbytes with heq
    · exact .inl heq
    · exact .inr ((dbContains_iff db title).mpr ⟨bytes, hbytes⟩)

/-- A film whose fields have one letter each. -/
theorem letterFilm_sound {c : UInt8} (hc : c ≠ 0) : (letterFilm c).Sound := by
  have hnul : (0 : UInt8) ∉ ([c] : Bytes) := by simpa using hc.symm
  exact ⟨⟨[c], hnul⟩, ⟨[c], hnul⟩, ⟨[c], hnul⟩, ⟨[c], hnul⟩, ⟨[c], hnul⟩, ⟨[c], hnul⟩, rfl⟩

/-- A server that has got the view of one film. -/
theorem exists_post_letterFilm : ∃ next,
    handleUrl cjson dbCreate (.collection .post "/films" (filmResourceGet "/films/3" (letterFilm 97))) =
      some (next, .created (filmHref "/films" 0)) ∧ liveFilms next = [letterFilm 97] := by
  have hsound : (letterFilm 97).Sound := letterFilm_sound (by decide)
  obtain ⟨next, hpost, hlive, -⟩ := databaseShape_dbCreate.post (by decide) (hsound.parse_view "/films/3")
    (by decide +kernel) "/films"
  exact ⟨next, hpost, hlive⟩

/-- **The list.** The answer to a GET of the collection has the title and the location of each film of the database in
the order of their ids, and nothing else. The id in a location leads to the film, and the view that it has there is
parsed to the film. -/
theorem list_films_follow (requests : List UrlRequest) (db : Database)
    (hrun : Run (Served cjson) dbCreate requests db) (fullpath : String) (hnul : '\x00' ∉ fullpath.toList) :
    readList (listFilmsText db fullpath) =
        some ((listFilms db fullpath).map fun (title, href) => (some title, some (bytesOf href))) ∧
      (∀ i f, Live db i f → (f.title, filmHref fullpath i) ∈ listFilms db fullpath) ∧
      ∀ title href, (title, href) ∈ listFilms db fullpath → ∃ i f, href = filmHref fullpath i ∧ f.title = title ∧
        ∀ other fullPath, dbGet db (scanIndex other (toString i)) = some f ∧
          parseFilm cjson (filmResourceGet fullPath f) = (0, some f) := by
  have hsound := databaseSound_of_run hrun
  refine ⟨readList_listFilmsText hsound hnul, fun i f hlive => ?_, fun title href hmem => ?_⟩
  · exact List.mem_filterMap.mpr ⟨i, List.mem_range.mpr hlive.1, by rw [hlive.getD, Option.map_some]⟩
  · obtain ⟨i, f, hhref, htitle, hlive⟩ := listFilms_live hmem
    refine ⟨i, f, hhref, htitle, fun other fullPath => ⟨?_, (hsound.live hlive).parse_view fullPath⟩⟩
    rw [hsound.shape.scanIndex_live hlive, dbGet_of_live hlive]

theorem list_films_follow_letter : ∃ db, liveFilms db = [letterFilm 97] ∧
    readList (listFilmsText db "/films") =
      some ((listFilms db "/films").map fun (title, href) => (some title, some (bytesOf href))) := by
  obtain ⟨db, hpost, hlive⟩ := exists_post_letterFilm
  exact ⟨db, hlive, (list_films_follow _ db (.single ⟨_, hpost⟩) "/films" (by decide)).1⟩

/-- **POST and GET.** The location in the answer to a POST has the id of the film that was sent, and the view that GET
returns there is parsed to the same film as the data that was sent. -/
theorem post_then_get (requests : List UrlRequest) (db next : Database)
    (hrun : Run (Served cjson) dbCreate requests db) (fullpath : String) (data : Bytes) (location : String)
    (hpost : handleUrl cjson db (.collection .post fullpath data) = some (next, .created location)) :
    ∃ i f, location = filmHref fullpath i ∧ ∀ other fullPath, dbGet next (scanIndex other (toString i)) = some f ∧
      parseFilm cjson (filmResourceGet fullPath f) = parseFilm cjson data := by
  have hsound := databaseSound_of_run hrun
  have hnext := hsound.served ⟨_, hpost⟩
  obtain ⟨i, f, hlocation, hparse, hlive⟩ := hsound.shape.created_live hpost
  refine ⟨i, f, hlocation, fun other fullPath => ⟨?_, ?_⟩⟩
  · rw [hnext.shape.scanIndex_live hlive, dbGet_of_live hlive]
  · rw [(hnext.live hlive).parse_view fullPath]
    unfold parseFilm at hparse ⊢
    cases hfields : fieldNames.mapM (cjson data) with
    | none =>
        rw [hfields] at hparse
        cases hparse
    | some fields =>
        rw [hfields] at hparse
        exact congrArg (Prod.mk 0) hparse.symm

theorem post_then_get_letter : ∃ next i f, filmHref "/films" 0 = filmHref "/films" i ∧
    ∀ other fullPath, dbGet next (scanIndex other (toString i)) = some f ∧
      parseFilm cjson (filmResourceGet fullPath f) = parseFilm cjson (filmResourceGet "/films/3" (letterFilm 97)) := by
  obtain ⟨next, hpost, -⟩ := exists_post_letterFilm
  exact ⟨next, post_then_get [] dbCreate next (.nil _) "/films" _ _ hpost⟩

/-- Films with different titles are added one after the other to an empty database. -/
theorem run_posts (fullpath : String) (view : Film → Bytes) (films : List Film)
    (hparse : ∀ f ∈ films, parseFilm cjson (view f) = (0, some f)) (htitles : (films.map Film.title).Nodup)
    (hroom : films.length ≤ maxFilms) :
    ∃ next, Run (Served cjson) dbCreate (films.map fun f => .collection .post fullpath (view f)) next ∧
      liveFilms next = films ∧ next.curFilms = films.length ∧
      ∀ title, dbContains next title = true → title ∈ films.map Film.title := by
  induction films using List.reverseRecOn with
  | nil => exact ⟨dbCreate, .nil _, rfl, rfl, fun title htitle => by cases htitle⟩
  | append_singleton films f ih =>
      rw [List.map_append, List.nodup_append] at htitles
      rw [List.length_append, List.length_singleton] at hroom
      obtain ⟨db, hrun, hlive, hcur, hcontains⟩ :=
        ih (fun g hg => hparse g (List.mem_append_left _ hg)) htitles.1 (by omega)
      have hnew : dbContains db f.title = false := by
        rw [Bool.eq_false_iff]
        intro hfound
        exact htitles.2.2 f.title (hcontains f.title hfound) f.title (by simp) rfl
      obtain ⟨next, hserved, hlive', hcur', hcontains'⟩ := (databaseShape_of_run hrun).post (by omega)
        (hparse f (List.mem_append_right _ List.mem_cons_self)) hnew fullpath
      refine ⟨next, ?_, by rw [hlive', hlive], by rw [hcur', hcur, List.length_append]; rfl, fun title htitle => ?_⟩
      · rw [List.map_append]
        exact hrun.append (.single ⟨_, hserved⟩)
      · rw [List.map_append, List.mem_append]
        rcases hcontains' title htitle with rfl | hbefore
        · exact .inr (by simp)
        · exact .inl (hcontains title hbefore)

/-- **Delete and restore.** Where the films have different titles, a client that has the view of each film can delete
the collection and send the views back, and the database has the same films in the same order again. -/
theorem delete_and_restore (requests : List UrlRequest) (db : Database)
    (hrun : Run (Served cjson) dbCreate requests db) (htitles : ((liveFilms db).map Film.title).Nodup)
    (fullpath : String) (fullPath : Film → String) :
    ∃ next, Run (Served cjson) db (.collection .delete fullpath [] ::
        (liveFilms db).map fun f => .collection .post fullpath (filmResourceGet (fullPath f) f)) next ∧
      liveFilms next = liveFilms db := by
  have hsound := databaseSound_of_run hrun
  have hparse : ∀ f ∈ liveFilms db, parseFilm cjson (filmResourceGet (fullPath f) f) = (0, some f) := by
    intro f hf
    obtain ⟨i, hlive⟩ := mem_liveFilms hf
    exact (hsound.live hlive).parse_view (fullPath f)
  have hroom : (liveFilms db).length ≤ maxFilms := (liveFilms_length db).trans hsound.shape.curLe
  obtain ⟨next, hposts, hlive, -⟩ := run_posts fullpath _ _ hparse htitles hroom
  exact ⟨next, .cons ⟨.ok, rfl⟩ hposts, hlive⟩

theorem delete_and_restore_letter : ∃ db next, liveFilms db = [letterFilm 97] ∧ Run (Served cjson) db
    (.collection .delete "/films" [] ::
      (liveFilms db).map fun f => .collection .post "/films" (filmResourceGet "/films/0" f)) next ∧
    liveFilms next = liveFilms db := by
  obtain ⟨db, hpost, hlive⟩ := exists_post_letterFilm
  have htitles : ((liveFilms db).map Film.title).Nodup := by simp [hlive]
  obtain ⟨next, hrun⟩ := delete_and_restore _ db (.single ⟨_, hpost⟩) htitles "/films" fun _ => "/films/0"
  exact ⟨db, next, hlive, hrun⟩

end Restore

end ComputerNetworking.Movies
