import ComputerNetworking.MovieDatabase
import ComputerNetworking.NumeralScan

/-! Requests to the movie server as they arrive, with the id of a film as a text.

`db_get` and `db_delete` each scan the text for themselves. What their variable held before, which stays if
the text has no number, and what `sscanf` stores for a number that does not fit an `int`, are not known and come
with the request. -/

namespace ComputerNetworking.Movies

open Dht Transition NumeralScan

/-! ### Requests by path -/

/-- What `sscanf` leaves of a text that is no `int`: what the variable held, or what it stores for a number that
does not fit, of which the standard says nothing. -/
structure Unscanned where
  held : Int
  overflow : Int → Int

/-- In glibc the number is cut to a `long`, and the variable gets its last 32 bits. -/
def Unscanned.glibc (held : Int) : Unscanned :=
  ⟨held, fun n => (max (-2 ^ 63) (min n (2 ^ 63 - 1))).bmod (2 ^ 32)⟩

/-- The number fits an `int`. -/
def FitsInt (n : Int) : Prop := -0x80000000 ≤ n ∧ n < 0x80000000

instance (n : Int) : Decidable (FitsInt n) :=
  inferInstanceAs (Decidable (_ ∧ _))

/-- The index after `sscanf(text, "%d", &index)`. -/
def scanIndex (other : Unscanned) (text : String) : Int :=
  match scanInt text.toList with
  | some n => if FitsInt n then n else other.overflow n
  | none => other.held

/-- A request by its path. The request on a film has what is not known of the scans of `db_get` and `db_delete`. -/
inductive UrlRequest where
  | collection (method : Method) (fullpath : String) (data : Bytes)
  | film (id : String) (getIndex deleteIndex : Unscanned) (method : Method) (data : Option Bytes)

section Handlers

variable (json : Json) (db : Database)

def handleUrl : UrlRequest → Option (Database × Response)
  | .collection method fullpath data => filmCollection json db method fullpath data
  | .film id getIndex deleteIndex method data =>
      match dbGet db (scanIndex getIndex id) with
      | none => some (db, .notFound)
      | some f =>
          match method with
          | .get => some (db, .ok)
          | .put => filmResourceUpdate json db data f
          | .delete => some (dbDelete db (scanIndex deleteIndex id), .ok)
          | _ => some (db, .notFound)

/-- The indices at which `db_get` and `db_delete` look into the array for the number of a text. -/
def checkedIndices (index : Int) : List Int :=
  if index ≥ db.curFilms ∨ index < 0 then [] else [index]

/-- The indices that the functions of the database use on the array for a request. -/
def filmIndices : UrlRequest → List Int
  | .collection .post _ data =>
      match parseFilm json data with
      | (_, some f) => if dbContains db f.title then [] else [(db.curFilms : Int)]
      | (_, none) => []
  | .collection _ _ _ => []
  | .film id getIndex deleteIndex method data =>
      checkedIndices db (scanIndex getIndex id) ++
        match dbGet db (scanIndex getIndex id), method, data with
        | some f, .put, some _ => (dbGetId db f.title).toList
        | some _, .delete, _ => checkedIndices db (scanIndex deleteIndex id)
        | _, _, _ => []

end Handlers

/-- The server handles a request that arrives. -/
def Served (json : Json) (db : Database) (req : UrlRequest) (next : Database) : Prop :=
  ∃ response, handleUrl json db req = some (next, response)

theorem fitsInt_natCast {i : Nat} (h : i < 0x80000000) : FitsInt i :=
  ⟨by omega, by omega⟩

theorem scanIndex_toString (other : Unscanned) {i : Nat} (h : i < 0x80000000) :
    scanIndex other (toString i) = i := by
  rw [scanIndex, scanInt_toString]
  exact if_pos (fitsInt_natCast h)

section Served

variable {json : Json} {db next : Database} {req : UrlRequest}

/-- What a request can do to the database. -/
theorem Served.cases (h : Served json db req next) :
    (next = db ∧ ∀ id getIndex deleteIndex data,
      req = .film id getIndex deleteIndex .put (some data) → dbGet db (scanIndex getIndex id) = none) ∨
    (∃ fullpath data response, req = .collection .post fullpath data ∧
      addFilm json db fullpath data = some (next, response)) ∨
    (∃ fullpath data, req = .collection .delete fullpath data ∧ next = dbCreate) ∨
    (∃ id getIndex deleteIndex data f, req = .film id getIndex deleteIndex .put (some data) ∧
      dbGet db (scanIndex getIndex id) = some f ∧
      dbUpdate db f.title (parseFilm json data).2 = some next) ∨
    ∃ id getIndex deleteIndex data f, req = .film id getIndex deleteIndex .delete data ∧
      dbGet db (scanIndex getIndex id) = some f ∧ next = dbDelete db (scanIndex deleteIndex id) := by
  obtain ⟨response, h⟩ := h
  cases req with
  | collection method fullpath data =>
      cases method with
      | post => exact .inr (.inl ⟨fullpath, data, response, rfl, h⟩)
      | delete =>
          cases h
          exact .inr (.inr (.inl ⟨fullpath, data, rfl, rfl⟩))
      | get | put | other =>
          cases h
          exact .inl ⟨rfl, fun _ _ _ _ => nofun⟩
  | film id getIndex deleteIndex method data =>
      rw [handleUrl] at h
      cases hget : dbGet db (scanIndex getIndex id) with
      | none =>
          rw [hget] at h
          cases h
          refine .inl ⟨rfl, fun _ _ _ _ heq => ?_⟩
          cases heq
          exact hget
      | some f =>
          rw [hget] at h
          cases method with
          | put =>
              cases data with
              | none =>
                  cases h
                  exact .inl ⟨rfl, fun _ _ _ _ => nofun⟩
              | some data =>
                  dsimp only at h
                  rw [filmResourceUpdate_eq, Option.map_eq_some_iff] at h
                  obtain ⟨next, hupdate, heq⟩ := h
                  cases heq
                  exact .inr (.inr (.inr (.inl ⟨id, getIndex, deleteIndex, data, f, rfl, hget, hupdate⟩)))
          | delete =>
              cases h
              exact .inr (.inr (.inr (.inr ⟨id, getIndex, deleteIndex, data, f, rfl, hget, rfl⟩)))
          | get | post | other =>
              cases h
              exact .inl ⟨rfl, fun _ _ _ _ => nofun⟩

/-- Scanning twice leads to no other states than scanning once. -/
theorem Served.handled (h : Served json db req next) : ∃ req', Handled json db req' next := by
  have hidle : Handled json db (.collection .get "" []) db := ⟨.ok, rfl⟩
  rcases h.cases with ⟨rfl, -⟩ | ⟨fullpath, data, response, -, hadd⟩ | ⟨fullpath, data, -, rfl⟩ |
    ⟨id, getIndex, deleteIndex, data, f, -, hget, hupdate⟩ |
    ⟨id, getIndex, deleteIndex, data, f, -, hget, rfl⟩
  · exact ⟨_, hidle⟩
  · exact ⟨.collection .post fullpath data, response, hadd⟩
  · exact ⟨.collection .delete fullpath data, .ok, rfl⟩
  · refine ⟨.film (scanIndex getIndex id) .put (some data), .ok, ?_⟩
    rw [handle, filmResource, hget]
    dsimp only
    rw [filmResourceUpdate_eq, hupdate, Option.map_some]
  · cases hdelete : dbGet db (scanIndex deleteIndex id) with
    | none =>
        rw [dbDelete_eq_self hdelete]
        exact ⟨_, hidle⟩
    | some g =>
        refine ⟨.film (scanIndex deleteIndex id) .delete none, .ok, ?_⟩
        rw [handle, filmResource, hdelete]

/-- The states that requests by path lead to are states that requests by id lead to. -/
theorem exists_handled_run {requests : List UrlRequest} (hrun : Run (Served json) db requests next) :
    ∃ requests', Run (Handled json) db requests' next :=
  hrun.relabel fun _ _ _ h => h.handled

end Served

/-! ### What holds in every state -/

/-- What holds whatever is requested: the index has only ids that were given out. -/
structure DatabaseShape (db : Database) : Prop where
  wf : db.idMap.Wf sizeHash
  array : db.films.length = maxFilms
  curLe : db.curFilms ≤ maxFilms
  bound : ∀ title bytes, db.idMap.bindings sizeHash title = some bytes →
    ∃ i < db.curFilms, bytes = bytesOfInt i

section Shape

variable {json : Json} {db db' : Database} {title : Bytes}

theorem databaseShape_dbCreate : DatabaseShape dbCreate where
  wf := wf_htCreate sizeHash
  array := List.length_replicate
  curLe := Nat.zero_le _
  bound := by
    intro title bytes hbytes
    cases hbytes

theorem DatabaseShape.lt (h : DatabaseShape db) {i : Nat} (hi : i ≤ db.curFilms) : i < 0x80000000 := by
  have hcur := h.curLe
  unfold maxFilms at hcur
  omega

/-- A title is not in the index, or has an id there that was given out. -/
theorem DatabaseShape.dbGetId_cases (h : DatabaseShape db) (title : Bytes) :
    (dbContains db title = false ∧ dbGetId db title = some (-1)) ∨
      ∃ i < db.curFilms, dbContains db title = true ∧ dbGetId db title = some (i : Int) ∧
        db.idMap.bindings sizeHash title = some (bytesOfInt i) := by
  cases hbound : db.idMap.bindings sizeHash title with
  | none =>
      left
      rw [dbContains, dbGetId, htGetValue_eq, hbound]
      exact ⟨rfl, rfl⟩
  | some bytes =>
      right
      obtain ⟨i, hi, rfl⟩ := h.bound title bytes hbound
      exact ⟨i, hi, (dbContains_iff db title).mpr ⟨_, hbound⟩, dbGetId_eq (h.lt hi.le) hbound, rfl⟩

theorem DatabaseShape.add (h : DatabaseShape db) {f : Film} (hadd : dbAdd db title f = some db') :
    DatabaseShape db' := by
  obtain ⟨hroom, rfl⟩ := dbAdd_eq_some_iff.mp hadd
  obtain ⟨hwf, hmap, -⟩ := htSetValue_spec h.wf title (bytesOfInt db.curFilms)
  refine ⟨hwf, by rw [List.length_set, h.array], hroom, fun title' bytes hbytes => ?_⟩
  dsimp only at hbytes ⊢
  rw [hmap, Function.update_apply] at hbytes
  split at hbytes
  · cases hbytes
    exact ⟨db.curFilms, Nat.lt_succ_self _, rfl⟩
  · obtain ⟨i, hi, heq⟩ := h.bound title' bytes hbytes
    exact ⟨i, Nat.lt_succ_of_lt hi, heq⟩

/-- What an update does: it finds the film by the index, takes its title out of the index and puts the
given title there. -/
theorem DatabaseShape.update_cases (h : DatabaseShape db) {value : Option Film}
    (hupdate : dbUpdate db title value = some db') : ∃ (i : Nat) (prevFilm : Film),
      dbGetId db title = some (i : Int) ∧ Live db i prevFilm ∧ db'.films = db.films.set i value ∧
      db'.curFilms = db.curFilms ∧
      db'.idMap.Wf sizeHash ∧ db'.idMap.bindings sizeHash = Function.update
        (Function.update (db.idMap.bindings sizeHash) prevFilm.title none) title (some (bytesOfInt i)) := by
  rcases h.dbGetId_cases title with ⟨-, hid⟩ | ⟨i, hi, -, hid, -⟩
  · rw [dbUpdate, hid, Option.bind_some, if_pos (.inl (by decide))] at hupdate
    cases hupdate
  · cases hget : dbGet db i with
    | none =>
        have hcur := h.curLe
        rw [dbGet, if_neg (by omega), Int.toNat_natCast] at hget
        rw [dbUpdate, hid, Option.bind_some, if_neg (by omega), Int.toNat_natCast, hget] at hupdate
        cases hupdate
    | some prevFilm =>
        have hlive : Live db i prevFilm := (dbGet_eq_some_iff.mp hget).2
        rw [dbUpdate_of_live hid hlive h.curLe] at hupdate
        cases hupdate
        obtain ⟨hwf, hmap, -⟩ := htDeleteKey_spec h.wf prevFilm.title
        obtain ⟨hwf', hmap', -⟩ := htSetValue_spec hwf title (bytesOfInt i)
        exact ⟨i, prevFilm, hid, hlive, rfl, rfl, hwf', hmap'.trans (by rw [hmap])⟩

theorem DatabaseShape.update (h : DatabaseShape db) {value : Option Film}
    (hupdate : dbUpdate db title value = some db') : DatabaseShape db' := by
  obtain ⟨i, prevFilm, -, hlive, hfilms, hcur, hwf, hmap⟩ := h.update_cases hupdate
  refine ⟨hwf, by rw [hfilms, List.length_set, h.array], hcur ▸ h.curLe, fun title' bytes hbytes => ?_⟩
  rw [hmap, Function.update_apply, Function.update_apply] at hbytes
  rw [hcur]
  split at hbytes
  · cases hbytes
    exact ⟨i, hlive.1, rfl⟩
  · split at hbytes
    · cases hbytes
    · exact h.bound title' bytes hbytes

theorem DatabaseShape.delete (h : DatabaseShape db) (index : Int) : DatabaseShape (dbDelete db index) := by
  cases hget : dbGet db index with
  | none =>
      rw [dbDelete_eq_self hget]
      exact h
  | some f =>
      obtain ⟨i, rfl, hf⟩ := exists_live_of_dbGet hget
      obtain ⟨hwf, hmap, -⟩ := htDeleteKey_spec h.wf f.title
      rw [dbDelete_of_live hf]
      refine ⟨hwf, by rw [List.length_set, h.array], h.curLe, fun title bytes hbytes => ?_⟩
      dsimp only at hbytes
      rw [hmap, Function.update_apply] at hbytes
      split at hbytes
      · cases hbytes
      · exact h.bound title bytes hbytes

/-- What `add_film` does: it rejects the data, or adds the film of the data under the next id. -/
theorem DatabaseShape.addFilm_cases (h : DatabaseShape db) {fullpath : String} {data : Bytes}
    {response : Response} (hreq : addFilm json db fullpath data = some (db', response)) :
    (db' = db ∧ response = .notFound) ∨ ∃ f, (parseFilm json data).2 = some f ∧
      dbContains db f.title = false ∧ dbAdd db f.title f = some db' ∧
      response = .created (baseUrl ++ fullpath ++ "/" ++ toString db.curFilms) := by
  unfold addFilm at hreq
  split at hreq
  · rename_i status f hparse
    split at hreq
    · cases hreq
      exact .inl ⟨rfl, rfl⟩
    split at hreq
    · cases hreq
      exact .inl ⟨rfl, rfl⟩
    rename_i hnew
    simp only [Option.bind_eq_some_iff, Option.map_eq_some_iff, Prod.mk.injEq] at hreq
    obtain ⟨next, hadd, id, hid, rfl, rfl⟩ := hreq
    refine .inr ⟨f, by rw [hparse], by simpa using hnew, hadd, ?_⟩
    have hbound : next.idMap.bindings sizeHash f.title = some (bytesOfInt db.curFilms) := by
      obtain ⟨-, rfl⟩ := dbAdd_eq_some_iff.mp hadd
      dsimp only
      rw [(htSetValue_spec h.wf f.title (bytesOfInt db.curFilms)).2.1]
      exact Function.update_self _ _ _
    rw [dbGetId_eq (h.lt le_rfl) hbound] at hid
    cases hid
    rfl
  · cases hreq
    exact .inl ⟨rfl, rfl⟩

theorem DatabaseShape.served (h : DatabaseShape db) {req : UrlRequest} (hserved : Served json db req db') :
    DatabaseShape db' := by
  rcases hserved.cases with ⟨rfl, -⟩ | ⟨fullpath, data, response, -, hadd⟩ | ⟨fullpath, data, -, rfl⟩ |
    ⟨id, getIndex, deleteIndex, data, f, -, -, hupdate⟩ | ⟨id, getIndex, deleteIndex, data, f, -, -, rfl⟩
  · exact h
  · rcases h.addFilm_cases hadd with ⟨rfl, -⟩ | ⟨f, -, -, hadd, -⟩
    · exact h
    · exact h.add hadd
  · exact databaseShape_dbCreate
  · exact h.update hupdate
  · exact h.delete _

theorem databaseShape_of_run {requests : List UrlRequest} (hrun : Run (Served json) dbCreate requests db) :
    DatabaseShape db := by
  apply hrun.invariant _ databaseShape_dbCreate
  intro db req next hshape hserved
  exact hshape.served hserved

end Shape

/-! ### Rejected bodies -/

/-- The data of a request lacks a field, or has something else than a string there. -/
def Rejected (json : Json) (data : Bytes) : Prop := ∃ name ∈ fieldNames, json data name = none

section Rejections

variable {json : Json} {data : Bytes}

/-- One field that is missing is enough, wherever the fields before it were found. -/
theorem mapM_eq_none {α β : Type*} {f : α → Option β} {l : List α} {a : α} (ha : a ∈ l) (h : f a = none) :
    l.mapM f = none := by
  induction l with
  | nil => cases ha
  | cons b l ih =>
      rw [List.mapM_cons]
      cases hb : f b with
      | none => rfl
      | some y =>
          have hmem : a ∈ l := by
            rcases List.mem_cons.mp ha with rfl | hmem
            · rw [h] at hb
              cases hb
            · exact hmem
          rw [ih hmem]
          rfl

theorem parseFilm_of_rejected (h : Rejected json data) : parseFilm json data = (1, none) := by
  obtain ⟨name, hname, hmissing⟩ := h
  rw [parseFilm, mapM_eq_none hname hmissing]

/-- **Rejected bodies.** A POST with one is answered with an error and changes nothing. A PUT is answered
so exactly if there is no film to be changed: on a film it stores no film. -/
theorem rejected_body_iff (json : Json) (db : Database) (data : Bytes) (h : Rejected json data) :
    (∀ fullpath, handleUrl json db (.collection .post fullpath data) = some (db, .notFound)) ∧
      ∀ id getIndex deleteIndex,
        handleUrl json db (.film id getIndex deleteIndex .put (some data)) = some (db, .notFound) ↔
          dbGet db (scanIndex getIndex id) = none := by
  have hparse := parseFilm_of_rejected h
  refine ⟨fun fullpath => ?_, fun id getIndex deleteIndex => ?_⟩
  · rw [handleUrl, filmCollection, addFilm, hparse]
  · rw [handleUrl]
    cases dbGet db (scanIndex getIndex id) with
    | none => exact iff_of_true rfl rfl
    | some f =>
        apply iff_of_false _ (Option.some_ne_none f)
        intro heq
        dsimp only at heq
        rw [filmResourceUpdate_eq, Option.map_eq_some_iff] at heq
        obtain ⟨next, -, hresponse⟩ := heq
        cases hresponse

end Rejections

/-- A film of which every field is one letter is sent to the collection, and for the film with an id. -/
def postFilm (c : UInt8) : UrlRequest := .collection .post "/films" (text c)

def putFilm (id : String) (c : UInt8) : UrlRequest := .film id (.glibc 0) (.glibc 0) .put (some (text c))

/-- The film of such a text. -/
def letterFilm (c : UInt8) : Film := ⟨List.replicate 6 [c]⟩

/-- The database after a request that is served. -/
def servedAfter (db : Database) (req : UrlRequest) : Database :=
  ((handleUrl testJson db req).map (·.1)).getD db

theorem served_servedAfter {db : Database} {req : UrlRequest}
    (h : (handleUrl testJson db req).isSome = true) : Served testJson db req (servedAfter db req) := by
  obtain ⟨result, hresult⟩ := Option.isSome_iff_exists.mp h
  exact ⟨result.2, by rw [servedAfter, hresult]; rfl⟩

/-- A text like that of a film, of which the field `director` is missing. -/
def noDirector : Bytes := [123, 34, 116, 105, 116, 108, 101, 34, 58, 34, 97, 34, 44,
  34, 111, 114, 105, 103, 105, 110, 97, 108, 84, 105, 116, 108, 101, 34, 58, 34, 97, 34, 44,
  34, 112, 114, 111, 100, 117, 99, 116, 105, 111, 110, 89, 101, 97, 114, 34, 58, 34, 97, 34, 44,
  34, 108, 101, 110, 103, 116, 104, 34, 58, 34, 97, 34, 44,
  34, 97, 99, 116, 111, 114, 115, 34, 58, 34, 97, 34, 125]

/-- What the library finds in it. -/
def noDirectorJson : Json := fun s name => if s = noDirector ∧ name = "director" then none else testJson s name

/-- A film without a director is added to no list and put on no film. -/
theorem rejected_body_iff_noDirector :
    handleUrl noDirectorJson (servedAfter dbCreate (postFilm 97)) (.collection .post "/films" noDirector) =
        some (servedAfter dbCreate (postFilm 97), .notFound) ∧
      handleUrl noDirectorJson (servedAfter dbCreate (postFilm 97))
        (.film "1" (.glibc 0) (.glibc 0) .put (some noDirector)) =
        some (servedAfter dbCreate (postFilm 97), .notFound) ∧
      handleUrl noDirectorJson (servedAfter dbCreate (postFilm 97))
        (.film "0" (.glibc 0) (.glibc 0) .put (some noDirector)) ≠
        some (servedAfter dbCreate (postFilm 97), .notFound) := by
  have hall := rejected_body_iff noDirectorJson (servedAfter dbCreate (postFilm 97)) noDirector
    ⟨"director", by decide, rfl⟩
  refine ⟨hall.1 "/films", (hall.2 "1" (.glibc 0) (.glibc 0)).mpr (by decide +kernel), fun heq => ?_⟩
  have hnone := (hall.2 "0" (.glibc 0) (.glibc 0)).mp heq
  have hfilm : (dbGet (servedAfter dbCreate (postFilm 97)) (scanIndex (.glibc 0) "0")).isSome = true := by
    decide +kernel
  rw [hnone] at hfilm
  cases hfilm

/-- A PUT with an empty body on the film that has just been added is answered like any other, and takes
the film out of the array. -/
theorem rejected_put_removes_film :
    ∃ db, Run (Served testJson) dbCreate [postFilm 97] db ∧ Rejected testJson [] ∧
      dbGet db 0 = some (letterFilm 97) ∧
      (handleUrl testJson db (.film "0" (.glibc 0) (.glibc 0) .put (some []))).map (fun r => (r.2, dbGet r.1 0)) =
        some (.ok, none) ∧
      ¬∀ json requests db, Run (Served json) dbCreate requests db → ∀ data, Rejected json data →
        ∀ id getIndex deleteIndex,
          handleUrl json db (.film id getIndex deleteIndex .put (some data)) = some (db, .notFound) := by
  have hrun : Run (Served testJson) dbCreate [postFilm 97] (servedAfter dbCreate (postFilm 97)) :=
    .single (served_servedAfter (by decide +kernel))
  have hrejected : Rejected testJson [] := ⟨"title", List.mem_cons_self, rfl⟩
  have hstored : (handleUrl testJson (servedAfter dbCreate (postFilm 97))
      (.film "0" (.glibc 0) (.glibc 0) .put (some []))).map (fun r => (r.2, dbGet r.1 0)) = some (.ok, none) := by
    decide +kernel
  refine ⟨_, hrun, hrejected, by decide +kernel, hstored, fun h => ?_⟩
  rw [h testJson _ _ hrun [] hrejected "0" (.glibc 0) (.glibc 0)] at hstored
  cases hstored

end ComputerNetworking.Movies
