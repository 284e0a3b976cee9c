import ComputerNetworking.FilmArray

/-! The ids of films in paths: what `db_get` and `db_delete` take them for, and what becomes of the ids that
`add_film` and `list_films` print. -/

namespace ComputerNetworking.Movies

open Dht Transition NumeralScan

/-! ### Printed ids -/

/-- The location of a film, as `add_film` and `list_films` print it. -/
def filmHref (fullpath : String) (i : Nat) : String := baseUrl ++ fullpath ++ "/" ++ toString i

/-- `list_films`: the title and the location of each film. -/
def listFilms (db : Database) (fullpath : String) : List (Bytes × String) :=
  (List.range db.curFilms).filterMap fun i =>
    (db.films.getD i none).map fun f => (f.title, filmHref fullpath i)

section Printed

variable {json : Json} {db next : Database} {fullpath : String}

theorem listFilms_live {title : Bytes} {href : String} (h : (title, href) ∈ listFilms db fullpath) :
    ∃ i f, href = filmHref fullpath i ∧ f.title = title ∧ Live db i f := by
  rw [listFilms, List.mem_filterMap] at h
  obtain ⟨i, hi, hmap⟩ := h
  obtain ⟨f, hf, heq⟩ := Option.map_eq_some_iff.mp hmap
  cases heq
  rw [List.mem_range] at hi
  have hget : dbGet db i = some f := by
    rw [dbGet, if_neg (by omega), Int.toNat_natCast, hf]
  exact ⟨i, f, rfl, rfl, live_of_dbGet hget⟩

/-- The location in the answer to a POST is that of the film in its data. -/
theorem DatabaseShape.created_live (h : DatabaseShape db) {data : Bytes} {location : String}
    (hreq : handleUrl json db (.collection .post fullpath data) = some (next, .created location)) :
    ∃ i f, location = filmHref fullpath i ∧ (parseFilm json data).2 = some f ∧ Live next i f := by
  rcases h.addFilm_cases hreq with ⟨-, hresponse⟩ | ⟨f, hparse, -, hadd, hresponse⟩
  · cases hresponse
  · have hroom : db.curFilms < db.films.length := by
      rw [h.array]
      exact (dbAdd_eq_some_iff.mp hadd).1
    obtain ⟨-, rfl⟩ := dbAdd_eq_some_iff.mp hadd
    cases hresponse
    exact ⟨db.curFilms, f, rfl, hparse, Nat.lt_succ_self _, List.getElem?_set_self hroom⟩

end Printed

/-! ### Texts and ids -/

/-- `db_get` returns a film only for the text that its id is printed as. -/
def GetExact (db : Database) (text : String) (other : Unscanned) : Prop :=
  ∀ f, dbGet db (scanIndex other text) = some f → ∃ i, text = toString i ∧ Live db i f

/-- `db_delete` changes the database only for the text that the id of a film is printed as, and then it
removes this film. -/
def DeleteExact (db : Database) (text : String) (other : Unscanned) : Prop :=
  dbDelete db (scanIndex other text) ≠ db → ∃ i f, text = toString i ∧ Live db i f ∧
    dbDelete db (scanIndex other text) = { db with
      films := db.films.set i none
      idMap := (htDeleteKey sizeHash db.idMap f.title).1 }

/-- The id is that of no film. -/
def Vacant (db : Database) (index : Int) : Prop := ∀ i f, index = (i : Nat) → ¬Live db i f

/-- By the shape of the text. If there is no number at its front, no film has what the variable held as its id; if
the number does not fit, no film has what is stored for it; and otherwise the text is the number as it is printed,
without blanks, a plus sign or zeros before it and without anything behind it, or no film has the number. -/
def NamesNoOther (db : Database) (text : String) (other : Unscanned) : Prop :=
  match scanInt text.toList with
  | none => Vacant db other.held
  | some n => if FitsInt n then text = toString n ∨ Vacant db n else Vacant db (other.overflow n)

section Texts

variable {db : Database} {text : String} {other : Unscanned}

/-- A text is a printed number, or what is scanned is the id of no film. -/
theorem namesNoOther_iff : NamesNoOther db text other ↔
    (∃ i < 0x80000000, text = toString (i : Nat)) ∨ Vacant db (scanIndex other text) := by
  have hprinted {i : Nat} (heq : text = toString i) : scanInt text.toList = some (i : Int) := by
    rw [heq]
    exact scanInt_toString i
  unfold NamesNoOther scanIndex
  cases hscan : scanInt text.toList with
  | none =>
      apply (or_iff_right _).symm
      intro h
      obtain ⟨i, -, heq⟩ := h
      rw [hprinted heq] at hscan
      cases hscan
  | some n =>
      dsimp only
      split
      · rename_i hfits
        constructor
        · intro h
          rcases h with heq | hvacant
          · cases n with
            | ofNat i => exact .inl ⟨i, Int.ofNat_lt.mp hfits.2, heq⟩
            | negSucc i =>
                apply Or.inr
                intro j f hj
                cases hj
          · exact .inr hvacant
        · intro h
          rcases h with ⟨i, -, heq⟩ | hvacant
          · rw [hprinted heq] at hscan
            cases hscan
            exact .inl heq
          · exact .inr hvacant
      · rename_i hlarge
        apply (or_iff_right _).symm
        intro h
        obtain ⟨i, hi, heq⟩ := h
        rw [hprinted heq] at hscan
        cases hscan
        exact hlarge (fitsInt_natCast hi)

theorem getExact_iff (h : DatabaseShape db) : GetExact db text other ↔ NamesNoOther db text other := by
  rw [namesNoOther_iff]
  constructor
  · intro hexact
    by_cases hprinted : ∃ i < 0x80000000, text = toString i
    · exact .inl hprinted
    · apply Or.inr
      intro i f hscan hlive
      obtain ⟨j, htext, hj⟩ := hexact f (hscan ▸ dbGet_of_live hlive)
      exact hprinted ⟨j, h.lt hj.1.le, htext⟩
  · intro hnames f hget
    rcases hnames with ⟨i, hi, rfl⟩ | hnone
    · rw [scanIndex_toString other hi] at hget
      exact ⟨i, rfl, live_of_dbGet hget⟩
    · obtain ⟨i, hscan, hlive⟩ := exists_live_of_dbGet hget
      exact absurd hlive (hnone i f hscan)

theorem dbDelete_ne_self {i : Nat} {f : Film} (h : Live db i f) : dbDelete db i ≠ db := by
  intro heq
  have hslot : (dbDelete db i).films[i]? = some none := by
    rw [dbDelete_of_live h]
    exact (set_touchesOnly h none).1
  rw [heq, h.2] at hslot
  cases hslot

theorem deleteExact_iff (h : DatabaseShape db) :
    DeleteExact db text other ↔ NamesNoOther db text other := by
  rw [namesNoOther_iff]
  constructor
  · intro hexact
    by_cases hprinted : ∃ i < 0x80000000, text = toString i
    · exact .inl hprinted
    · apply Or.inr
      intro i f hscan hlive
      obtain ⟨j, g, htext, hj, -⟩ := hexact (hscan ▸ dbDelete_ne_self hlive)
      exact hprinted ⟨j, h.lt hj.1.le, htext⟩
  · intro hnames hchanged
    rw [← namesNoOther_iff] at hnames
    cases hget : dbGet db (scanIndex other text) with
    | none => exact absurd (dbDelete_eq_self hget) hchanged
    | some f =>
        obtain ⟨i, rfl, hlive⟩ := (getExact_iff h).mpr hnames f hget
        exact ⟨i, f, rfl, hlive, h.scanIndex_live hlive other ▸ dbDelete_of_live hlive⟩

end Texts

/-! ### The life of an id -/

/-- The film under an id after a request that does not remove it. -/
def bodyAfter (json : Json) (i : Nat) (f : Film) : UrlRequest → Film
  | .film id getIndex _ .put (some data) =>
      if scanIndex getIndex id = i then (parseFilm json data).2.getD f else f
  | _ => f

/-- The request deletes the film under an id: alone, or with all the others. -/
def Removes (db : Database) (i : Nat) : UrlRequest → Prop
  | .collection .delete _ _ => True
  | .film id getIndex deleteIndex .delete _ =>
      (dbGet db (scanIndex getIndex id)).isSome ∧ scanIndex deleteIndex id = i
  | _ => False

/-- A PUT on a film has the data of a film, and the index has the id of the film under its title. -/
def KeepsOthers (json : Json) (db : Database) : UrlRequest → Prop
  | .film id getIndex _ .put (some data) => ∀ f, dbGet db (scanIndex getIndex id) = some f →
      (parseFilm json data).2.isSome ∧ IdMapBinds db f.title (scanIndex getIndex id)
  | _ => True

section Life

variable {json : Json} {db next : Database} {req : UrlRequest} {i k : Nat} {f : Film}

theorem live_of_set {slot : Option Film} (h : Live db i f) (hfilms : next.films = db.films.set k slot)
    (hcur : db.curFilms ≤ next.curFilms) (hne : i ≠ k) : Live next i f := by
  refine ⟨h.1.trans_le hcur, ?_⟩
  rw [hfilms, List.getElem?_set_ne hne.symm]
  exact h.2

theorem live_dbDelete {index : Int} (h : Live db i f) (hne : index ≠ i) : Live (dbDelete db index) i f := by
  cases hget : dbGet db index with
  | none =>
      rw [dbDelete_eq_self hget]
      exact h
  | some g =>
      obtain ⟨k, rfl, hg⟩ := exists_live_of_dbGet hget
      rw [dbDelete_of_live hg]
      have hother : i ≠ k := by
        intro heq
        exact hne (congrArg Int.ofNat heq.symm)
      exact live_of_set h rfl le_rfl hother

/-- An update puts the new film under the id of the old one and leaves the others. -/
theorem live_update (h : DatabaseShape db) (hlive : Live db i f) {g body : Film} (hg : Live db k g)
    (hbinds : IdMapBinds db g.title k) (hupdate : dbUpdate db g.title (some body) = some next) :
    Live next i (if (k : Int) = i then body else f) := by
  obtain ⟨after, hafter, hfilms, hcur⟩ := dbUpdate_of_idMapBinds h hg hbinds (some body)
  obtain rfl : next = after := Option.some.inj (hupdate.symm.trans hafter)
  split
  · rename_i heq
    obtain rfl : k = i := Int.ofNat.inj heq
    refine ⟨hcur ▸ hlive.1, ?_⟩
    rw [hfilms]
    exact (set_touchesOnly hg (some body)).1
  · rename_i hne
    apply live_of_set hlive hfilms hcur.ge
    intro heq
    exact hne (congrArg Int.ofNat heq.symm)

/-- A film stays as it is unless there is data to be put on it. -/
theorem bodyAfter_of_idle (hlive : Live db i f) (hidle : ∀ id getIndex deleteIndex data,
    req = .film id getIndex deleteIndex .put (some data) → dbGet db (scanIndex getIndex id) = none) :
    bodyAfter json i f req = f := by
  unfold bodyAfter
  split
  · rename_i id getIndex deleteIndex data
    apply if_neg
    intro heq
    have hnone := hidle id getIndex deleteIndex data rfl
    rw [heq, dbGet_of_live hlive] at hnone
    cases hnone
  · rfl

/-- A request keeps a film under its id. -/
theorem live_served (h : DatabaseShape db) (hlive : Live db i f) (hkeeps : KeepsOthers json db req)
    (hstays : ¬Removes db i req) (hserved : Served json db req next) :
    Live next i (bodyAfter json i f req) := by
  rcases hserved.cases with ⟨rfl, hidle⟩ | ⟨fullpath, data, response, rfl, hadd⟩ |
    ⟨fullpath, data, rfl, -⟩ | ⟨id, getIndex, deleteIndex, data, g, rfl, hget, hupdate⟩ |
    ⟨id, getIndex, deleteIndex, data, g, rfl, hget, rfl⟩
  · rw [bodyAfter_of_idle hlive hidle]
    exact hlive
  · rcases h.addFilm_cases hadd with ⟨rfl, -⟩ | ⟨g, -, -, hadd, -⟩
    · exact hlive
    · obtain ⟨-, rfl⟩ := dbAdd_eq_some_iff.mp hadd
      exact live_of_set hlive rfl (Nat.le_succ _) (Nat.ne_of_lt hlive.1)
  · exact absurd trivial hstays
  · obtain ⟨k, hk, hg⟩ := exists_live_of_dbGet hget
    obtain ⟨hparse, hbinds⟩ := hkeeps g hget
    obtain ⟨body, hbody⟩ := Option.isSome_iff_exists.mp hparse
    rw [hk] at hbinds
    rw [hbody] at hupdate
    rw [bodyAfter, hk, hbody, Option.getD_some]
    exact live_update h hlive hg hbinds hupdate
  · have hother : scanIndex deleteIndex id ≠ i := fun heq => hstays ⟨by rw [hget]; rfl, heq⟩
    have hbody : bodyAfter json i f (.film id getIndex deleteIndex .delete data) = f := by
      cases data <;> rfl
    rw [hbody]
    exact live_dbDelete hlive hother

/-- As long as it is not deleted a film is found under its id, with what was last put there. -/
theorem live_of_run {later : List UrlRequest} (h : DatabaseShape db) (hlive : Live db i f)
    (hrun : Run (Guarded (fun db req => KeepsOthers json db req ∧ ¬Removes db i req) (Served json)) db later
      next) : DatabaseShape next ∧ Live next i (later.foldl (bodyAfter json i) f) := by
  induction hrun generalizing f with
  | nil db => exact ⟨h, hlive⟩
  | cons hstep _ ih =>
      obtain ⟨⟨hkeeps, hstays⟩, hserved⟩ := hstep
      exact ih (h.served hserved) (live_served h hlive hkeeps hstays hserved)

/-- **Ids of films.** In every state that requests lead to, `db_get` and `db_delete` take a text for the id
of a film exactly if it is printed so, or else what is scanned is the id of no film. The ids that are printed are
those of the films, and they stay so until the film is deleted, if every PUT on a film has the data of a
film and finds the id of the film under its title. -/
theorem film_ids_resolve_iff (json : Json) (requests : List UrlRequest) (db : Database)
    (hrun : Run (Served json) dbCreate requests db) :
    (∀ text other, (GetExact db text other ↔ NamesNoOther db text other) ∧
      (DeleteExact db text other ↔ NamesNoOther db text other)) ∧
    (∀ fullpath data next location,
      handleUrl json db (.collection .post fullpath data) = some (next, .created location) →
        ∃ i f, location = filmHref fullpath i ∧ (parseFilm json data).2 = some f ∧ Live next i f) ∧
    (∀ fullpath title href, (title, href) ∈ listFilms db fullpath →
      ∃ i f, href = filmHref fullpath i ∧ f.title = title ∧ Live db i f) ∧
    ∀ i f later db', Live db i f →
      Run (Guarded (fun db req => KeepsOthers json db req ∧ ¬Removes db i req) (Served json)) db later db' →
        ∀ other, dbGet db' (scanIndex other (toString i)) = some (later.foldl (bodyAfter json i) f) := by
  have hshape := databaseShape_of_run hrun
  refine ⟨fun text other => ⟨getExact_iff hshape, deleteExact_iff hshape⟩,
    fun fullpath data next location => hshape.created_live,
    fun fullpath title href => listFilms_live, fun i f later db' hlive hlater other => ?_⟩
  obtain ⟨hshape', hlive'⟩ := live_of_run hshape hlive hlater
  rw [hshape'.scanIndex_live hlive' other]
  exact dbGet_of_live hlive'

end Life

/-- A film whose title is changed is found under its id. -/
theorem film_ids_resolve_iff_put : dbGet dbB (scanIndex (.glibc 5) (toString 0)) = some (letterFilm 98) := by
  have hfilm : dbGet dbA 0 = some (letterFilm 97) := by decide +kernel
  have hscan : scanIndex (.glibc 0) (toString 0) = ((0 : Nat) : Int) := scanIndex_toString (.glibc 0) (by decide)
  have hserved : Served testJson dbA (putFilm (toString 0) 98) dbB :=
    served_servedAfter (by decide +kernel)
  have hkeeps : KeepsOthers testJson dbA (putFilm (toString 0) 98) := by
    intro f hf
    rw [hscan] at hf ⊢
    have heq : f = letterFilm 97 := Option.some.inj (hf.symm.trans hfilm)
    rw [heq]
    exact ⟨by decide +kernel, bytesOfInt 0, by decide +kernel, rfl⟩
  have hfound := (film_ids_resolve_iff testJson _ dbA run_dbA).2.2.2 0 (letterFilm 97)
    [putFilm (toString 0) 98] dbB (live_of_dbGet hfilm) (.single ⟨⟨hkeeps, not_false⟩, hserved⟩) (.glibc 5)
  rw [hfound]
  decide +kernel

/-- A text with something behind the number names a film; so does a text without a number, if the variable
happens to hold the id, and a number that is too large, if its last bits are the id. -/
theorem other_texts_resolve :
    ∃ db, Run (Served testJson) dbCreate [postFilm 97] db ∧
      (∀ other, dbGet db (scanIndex other "0x") = some (letterFilm 97)) ∧
      dbGet db (scanIndex (.glibc 0) "x") = some (letterFilm 97) ∧
      dbGet (dbDelete db (scanIndex (.glibc 0) "x")) 0 = none ∧
      dbGet db (scanIndex (.glibc (-1)) "4294967296") = some (letterFilm 97) ∧
      ¬∀ json requests db, Run (Served json) dbCreate requests db → ∀ text other,
        GetExact db text other := by
  have hfilm : dbGet dbA 0 = some (letterFilm 97) := by decide +kernel
  have htrailing (other : Unscanned) : scanIndex other "0x" = 0 := by
    have hscan : scanInt "0x".toList = some 0 := by decide
    rw [scanIndex, hscan]
    rfl
  have hempty : scanIndex (.glibc 0) "x" = 0 := by decide
  have hlarge : scanIndex (.glibc (-1)) "4294967296" = 0 := by decide
  refine ⟨dbA, run_dbA, fun other => by rw [htrailing]; exact hfilm, by rw [hempty]; exact hfilm,
    by rw [hempty]; decide +kernel, by rw [hlarge]; exact hfilm, fun h => ?_⟩
  obtain ⟨i, htext, -⟩ := h testJson _ dbA run_dbA "x" (.glibc 0) (letterFilm 97) (by rw [hempty]; exact hfilm)
  have hnone : scanInt "x".toList = none := by decide
  have hnumber := scanInt_toString i
  rw [← htext, hnone] at hnumber
  cases hnumber

end ComputerNetworking.Movies
