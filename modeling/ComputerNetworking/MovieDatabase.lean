import ComputerNetworking.HashTableRefinement
import ComputerNetworking.Transition

/-! The film database of the movie server (`database.c`, `film.c`, `block5.c`).

The films stand in an array under their ids; a hash table finds the id for a title. What the JSON
library finds in a text is a parameter: the string that an item of the object has, if it has one. The
id of a resource is the number that `sscanf` reads from its path. A function that reads or writes
outside of the array, or follows a `NULL` pointer, returns `none`. -/

namespace ComputerNetworking.Movies

open Dht Transition

/-! ### Films -/

/-- `field_names`. -/
def fieldNames : List String :=
  ["title", "originalTitle", "productionYear", "length", "director", "actors"]

/-- `film_title`. -/
def filmTitle : Nat := 0

/-- `film`: the strings of its fields. -/
structure Film where
  fields : List Bytes
  deriving DecidableEq, Repr

def Film.title (f : Film) : Bytes := f.fields.getD filmTitle []

/-- What the JSON library finds: the string of an item of the object that the text stands for. -/
abbrev Json := Bytes → String → Option Bytes

/-- `parse_film`: the status and the film. -/
def parseFilm (json : Json) (s : Bytes) : Int × Option Film :=
  match fieldNames.mapM (json s) with
  | none => (1, none)
  | some fields => (0, some ⟨fields⟩)

/-! ### The database -/

/-- `MAX_FILMS`. -/
def maxFilms : Nat := 1000

structure Database where
  films : List (Option Film)
  idMap : HashTable
  curFilms : Nat

/-- The bytes of an `int`. -/
def bytesOfInt (n : Nat) : Bytes :=
  [UInt8.ofNat n, UInt8.ofNat (n / 256), UInt8.ofNat (n / 65536), UInt8.ofNat (n / 16777216)]

/-- The `int` at a pointer to four bytes. -/
def intAt (bytes : Bytes) : Int :=
  let n := (bytes.getD 0 0).toNat + 256 * (bytes.getD 1 0).toNat + 65536 * (bytes.getD 2 0).toNat +
    16777216 * (bytes.getD 3 0).toNat
  if n < 0x80000000 then n else n - 0x100000000

def dbCreate : Database where
  films := List.replicate maxFilms none
  idMap := htCreate
  curFilms := 0

/-- `db_get`, `NULL` for an id that is not in use. -/
def dbGet (db : Database) (index : Int) : Option Film :=
  if index ≥ db.curFilms ∨ index < 0 then none else db.films.getD index.toNat none

def dbContains (db : Database) (title : Bytes) : Bool :=
  (htGetValue sizeHash db.idMap title).2.1.isSome

/-- `db_get_id`; `none` when the assertion on the length of the value fails. -/
def dbGetId (db : Database) (title : Bytes) : Option Int :=
  match htGetValue sizeHash db.idMap title with
  | (_, none, _) => some (-1)
  | (_, some id, resLen) => if resLen = 4 then some (intAt id) else none

def dbAdd (db : Database) (title : Bytes) (value : Film) : Option Database :=
  if db.curFilms < maxFilms then some {
    films := db.films.set db.curFilms (some value)
    idMap := (htSetValue sizeHash db.idMap title (bytesOfInt db.curFilms)).1
    curFilms := db.curFilms + 1 }
  else none

/-- `db_update`. The new film may be `NULL`. -/
def dbUpdate (db : Database) (title : Bytes) (value : Option Film) : Option Database :=
  (dbGetId db title).bind fun id =>
    if id < 0 ∨ id ≥ maxFilms then none
    else
      (db.films.getD id.toNat none).map fun prevFilm =>
        let idMap := (htDeleteKey sizeHash db.idMap prevFilm.title).1
        { db with
          films := db.films.set id.toNat value
          idMap := (htSetValue sizeHash idMap title (bytesOfInt id.toNat)).1 }

def dbDelete (db : Database) (index : Int) : Database :=
  if index ≥ db.curFilms ∨ index < 0 then db
  else
    match db.films.getD index.toNat none with
    | none => db
    | some f => { db with
        films := db.films.set index.toNat none
        idMap := (htDeleteKey sizeHash db.idMap f.title).1 }

/-! ### Requests -/

inductive Method where
  | get
  | post
  | put
  | delete
  | other
  deriving DecidableEq, Repr

/-- The answer to a request, without the views of the films that GET returns. -/
inductive Response where
  | ok
  | created (location : String)
  | notFound
  | notProcessed
  deriving DecidableEq, Repr

/-- A request on the collection or on the film with an id. The data of a PUT may be missing. -/
inductive Request where
  | collection (method : Method) (fullpath : String) (data : Bytes)
  | film (id : Int) (method : Method) (data : Option Bytes)

/-- `BASE_URL`. -/
def baseUrl : String := "http://0.0.0.0:4711"

section Handlers

variable (json : Json) (db : Database)

def addFilm (fullpath : String) (data : Bytes) : Option (Database × Response) :=
  match parseFilm json data with
  | (status, some f) =>
      if status < 0 then some (db, .notFound)
      else if dbContains db f.title then some (db, .notFound)
      else
        (dbAdd db f.title f).bind fun db =>
          (dbGetId db f.title).map fun id =>
            (db, .created (baseUrl ++ fullpath ++ "/" ++ toString id))
  | (_, none) => some (db, .notFound)

/-- `film_collection`, with `list_films` and `reset_db`. -/
def filmCollection (method : Method) (fullpath : String) (data : Bytes) :
    Option (Database × Response) :=
  match method with
  | .get => some (db, .ok)
  | .post => addFilm json db fullpath data
  | .delete => some (dbCreate, .ok)
  | _ => some (db, .notFound)

/-- `film_resource_update` on the film `f`, which is not `NULL`. -/
def filmResourceUpdate (data : Option Bytes) (f : Film) : Option (Database × Response) :=
  match data with
  | none => some (db, .notProcessed)
  | some data =>
      -- the test for `NULL` looks at `f` once more, not at the film that was parsed
      let (status, updatedFilm) := parseFilm json data
      if status < 0 then some (db, .notFound)
      else (dbUpdate db f.title updatedFilm).map fun db => (db, .ok)

/-- `film_resource`, with `film_resource_get` and `film_resource_delete`. -/
def filmResource (id : Int) (method : Method) (data : Option Bytes) : Option (Database × Response) :=
  match dbGet db id with
  | none => some (db, .notFound)
  | some f =>
      match method with
      | .get => some (db, .ok)
      | .put => filmResourceUpdate json db data f
      | .delete => some (dbDelete db id, .ok)
      | _ => some (db, .notFound)

def handle : Request → Option (Database × Response)
  | .collection method fullpath data => filmCollection json db method fullpath data
  | .film id method data => filmResource json db id method data

end Handlers

/-- The server handles a request. -/
def Handled (json : Json) (db : Database) (req : Request) (next : Database) : Prop :=
  ∃ response, handle json db req = some (next, response)

/-! ### Lookups -/

theorem intAt_bytesOfInt {n : Nat} (h : n < 0x80000000) : intAt (bytesOfInt n) = n := by
  have hsum : (UInt8.ofNat n).toNat + 256 * (UInt8.ofNat (n / 256)).toNat +
      65536 * (UInt8.ofNat (n / 65536)).toNat + 16777216 * (UInt8.ofNat (n / 16777216)).toNat = n := by
    simp only [UInt8.toNat_ofNat']
    omega
  simp only [intAt, bytesOfInt, List.getD_cons_zero, List.getD_cons_succ, hsum]
  rw [if_pos h]

/-- A film stands in the array under the id. -/
def Live (db : Database) (i : Nat) (f : Film) : Prop :=
  i < db.curFilms ∧ db.films[i]? = some (some f)

theorem Live.getD {db : Database} {i : Nat} {f : Film} (h : Live db i f) :
    db.films.getD i none = some f := by
  rw [List.getD_eq_getElem?_getD, h.2, Option.getD_some]

theorem dbGet_eq_some_iff {db : Database} {index : Int} {f : Film} :
    dbGet db index = some f ↔ 0 ≤ index ∧ Live db index.toNat f := by
  rw [dbGet, Live]
  split
  · simp only [reduceCtorEq, false_iff]
    rintro ⟨hnonneg, hlt, -⟩
    omega
  · have hrange : 0 ≤ index ∧ index.toNat < db.curFilms := by omega
    rw [List.getD_eq_getElem?_getD]
    cases db.films[index.toNat]? <;> simp [hrange]

theorem dbContains_iff (db : Database) (title : Bytes) :
    dbContains db title = true ↔ ∃ bytes, db.idMap.bindings sizeHash title = some bytes := by
  rw [dbContains, htGetValue_eq, ← Option.isSome_iff_exists]
  cases db.idMap.bindings sizeHash title <;> rfl

theorem dbGetId_eq {db : Database} {title : Bytes} {n : Nat} (hn : n < 0x80000000)
    (h : db.idMap.bindings sizeHash title = some (bytesOfInt n)) : dbGetId db title = some (n : Int) := by
  have hlength : (bytesOfInt n).length = 4 := rfl
  rw [dbGetId, htGetValue_eq, h]
  simp only [hlength, if_true, intAt_bytesOfInt hn]

/-! ### What the operations do -/

section Effects

variable {db db' : Database} {i : Nat} {f : Film} {title : Bytes} {index : Int}

/-- A film that is found stands under a natural number. -/
theorem exists_live_of_dbGet (h : dbGet db index = some f) :
    ∃ k : Nat, index = k ∧ Live db k f := by
  obtain ⟨hnonneg, hlive⟩ := dbGet_eq_some_iff.mp h
  exact ⟨index.toNat, (Int.toNat_of_nonneg hnonneg).symm, hlive⟩

theorem dbAdd_eq_some_iff : dbAdd db title f = some db' ↔ db.curFilms < maxFilms ∧ db' = {
    films := db.films.set db.curFilms (some f)
    idMap := (htSetValue sizeHash db.idMap title (bytesOfInt db.curFilms)).1
    curFilms := db.curFilms + 1 } := by
  unfold dbAdd
  split
  · rename_i hroom
    rw [Option.some.injEq, and_iff_right hroom]
    exact eq_comm
  · rename_i hfull
    exact iff_of_false (by simp) fun hall => hfull hall.1

theorem dbDelete_eq_self (h : dbGet db index = none) :
    dbDelete db index = db := by
  unfold dbGet at h
  unfold dbDelete
  split
  · rfl
  · rename_i hrange
    rw [if_neg hrange] at h
    rw [h]

theorem dbDelete_of_live (h : Live db i f) : dbDelete db i = { db with
    films := db.films.set i none
    idMap := (htDeleteKey sizeHash db.idMap f.title).1 } := by
  have hi := h.1
  rw [dbDelete, if_neg (by omega), Int.toNat_natCast, h.getD]

/-- An update on a film that the index finds. -/
theorem dbUpdate_of_live (hid : dbGetId db title = some (i : Int)) (hf : Live db i f)
    (hcur : db.curFilms ≤ maxFilms) (value : Option Film) : dbUpdate db title value = some { db with
      films := db.films.set i value
      idMap := (htSetValue sizeHash (htDeleteKey sizeHash db.idMap f.title).1 title (bytesOfInt i)).1 } := by
  have hi := hf.1
  rw [dbUpdate, hid, Option.bind_some, if_neg (by omega), Int.toNat_natCast, hf.getD]
  rfl

end Effects

/-! ### The index -/

/-- The table finds the `int` under the title. -/
def IdMapBinds (db : Database) (title : Bytes) (id : Int) : Prop :=
  ∃ bytes, htGetValue sizeHash db.idMap title = (0, some bytes, 4) ∧ intAt bytes = id

/-- The index and the array agree. -/
def IndexAgrees (db : Database) : Prop :=
  ∀ title id, IdMapBinds db title id ↔ 0 ≤ id ∧ ∃ f, Live db id.toNat f ∧ f.title = title

/-- What holds in every state while the index agrees with the array. -/
structure DatabaseInv (db : Database) : Prop where
  wf : db.idMap.Wf sizeHash
  array : db.films.length = maxFilms
  curLe : db.curFilms ≤ maxFilms
  index : ∀ title bytes, db.idMap.bindings sizeHash title = some bytes ↔
    ∃ i f, Live db i f ∧ f.title = title ∧ bytes = bytesOfInt i

section Index

variable {db : Database} {f g : Film} {i j : Nat} {title : Bytes}

theorem DatabaseInv.lt (h : DatabaseInv db) (hf : Live db i f) : i < 0x80000000 := by
  have hcur := h.curLe
  have hi := hf.1
  unfold maxFilms at hcur
  omega

theorem DatabaseInv.bound (h : DatabaseInv db) (hf : Live db i f) :
    db.idMap.bindings sizeHash f.title = some (bytesOfInt i) :=
  (h.index _ _).mpr ⟨i, f, hf, rfl, rfl⟩

/-- No two films have the same title. -/
theorem DatabaseInv.title_injective (h : DatabaseInv db) (hf : Live db i f) (hg : Live db j g)
    (htitle : f.title = g.title) : i = j := by
  have hi := h.bound hf
  rw [htitle, h.bound hg, Option.some.injEq] at hi
  have hint := congrArg intAt hi
  rw [intAt_bytesOfInt (h.lt hf), intAt_bytesOfInt (h.lt hg)] at hint
  exact (Int.ofNat.inj hint).symm

theorem Live.unique (hf : Live db i f) (hg : Live db i g) : f = g := by
  have := hf.2.symm.trans hg.2
  simpa using this

theorem idMapBinds_iff {id : Int} : IdMapBinds db title id ↔
    ∃ bytes, db.idMap.bindings sizeHash title = some bytes ∧ bytes.length = 4 ∧ intAt bytes = id := by
  refine exists_congr fun bytes => ?_
  rw [htGetValue_eq, ← and_assoc]
  refine and_congr_left fun _ => ?_
  cases db.idMap.bindings sizeHash title with
  | none => simp
  | some found =>
      simp only [Prod.mk.injEq, Option.some.injEq, true_and]
      constructor <;> rintro ⟨rfl, hlength⟩ <;> exact ⟨rfl, hlength⟩

theorem DatabaseInv.indexAgrees (h : DatabaseInv db) : IndexAgrees db := by
  intro title id
  rw [idMapBinds_iff]
  constructor
  · rintro ⟨bytes, hbytes, -, rfl⟩
    obtain ⟨i, f, hf, htitle, rfl⟩ := (h.index title bytes).mp hbytes
    rw [intAt_bytesOfInt (h.lt hf)]
    exact ⟨by omega, f, hf, htitle⟩
  · rintro ⟨hnonneg, f, hf, rfl⟩
    refine ⟨_, h.bound hf, rfl, ?_⟩
    rw [intAt_bytesOfInt (h.lt hf)]
    omega

/-- What the array says decides what the index says. -/
theorem DatabaseInv.dbContains_iff (h : DatabaseInv db) (title : Bytes) :
    dbContains db title = true ↔ ∃ i f, Live db i f ∧ f.title = title := by
  rw [Movies.dbContains_iff]
  constructor
  · rintro ⟨bytes, hbytes⟩
    obtain ⟨i, f, hf, htitle, -⟩ := (h.index title bytes).mp hbytes
    exact ⟨i, f, hf, htitle⟩
  · rintro ⟨i, f, hf, rfl⟩
    exact ⟨_, h.bound hf⟩

theorem DatabaseInv.dbGetId_eq (h : DatabaseInv db) (hf : Live db i f) :
    dbGetId db f.title = some (i : Int) :=
  Movies.dbGetId_eq (h.lt hf) (h.bound hf)

end Index

/-! ### The operations keep the index -/

theorem databaseInv_dbCreate : DatabaseInv dbCreate where
  wf := wf_htCreate sizeHash
  array := List.length_replicate
  curLe := Nat.zero_le _
  index := fun title bytes => by
    constructor
    · rintro ⟨⟩
    · rintro ⟨i, f, ⟨hi, -⟩, -⟩
      cases hi

section Operations

variable {db db' : Database} {f g : Film} {i : Nat} {title : Bytes}

theorem live_set (db : Database) (g : Film) (slot : Option Film) (j : Nat) (hi : i < db.films.length) :
    ({ db with films := db.films.set i slot } : Database).films[j]? = some (some g) ↔
      (j = i ∧ slot = some g) ∨ (j ≠ i ∧ db.films[j]? = some (some g)) := by
  change (db.films.set i slot)[j]? = _ ↔ _
  by_cases hj : j = i
  · subst hj
    simp [List.getElem?_set_self hi]
  · simp [List.getElem?_set_ne (Ne.symm hj), hj]

/-- A film with a new title is added. -/
theorem DatabaseInv.add (h : DatabaseInv db) (hnew : dbContains db f.title = false)
    (hadd : dbAdd db f.title f = some db') : DatabaseInv db' := by
  obtain ⟨hroom, rfl⟩ := dbAdd_eq_some_iff.mp hadd
  obtain ⟨hwf, hmap, -⟩ := htSetValue_spec h.wf f.title (bytesOfInt db.curFilms)
  have harray := h.array
  refine ⟨hwf, by rw [List.length_set, harray], hroom, fun title bytes => ?_⟩
  have hlive {j : Nat} {g : Film} : Live ⟨db.films.set db.curFilms (some f),
      (htSetValue sizeHash db.idMap f.title (bytesOfInt db.curFilms)).1, db.curFilms + 1⟩ j g ↔
      (j = db.curFilms ∧ g = f) ∨ Live db j g := by
    have hset := @live_set db.curFilms db g (some f) j (by omega)
    rw [Live, Live]
    dsimp only at hset ⊢
    rw [hset, Option.some.injEq]
    constructor
    · rintro ⟨hj, ⟨rfl, rfl⟩ | ⟨hne, hget⟩⟩
      · exact .inl ⟨rfl, rfl⟩
      · exact .inr ⟨by omega, hget⟩
    · rintro (⟨rfl, rfl⟩ | ⟨hj, hget⟩)
      · exact ⟨by omega, .inl ⟨rfl, rfl⟩⟩
      · exact ⟨by omega, .inr ⟨by omega, hget⟩⟩
  have hfree (i : Nat) (g : Film) (hg : Live db i g) : g.title ≠ f.title := by
    intro heq
    rw [Bool.eq_false_iff] at hnew
    exact hnew ((h.dbContains_iff f.title).mpr ⟨i, g, hg, heq⟩)
  dsimp only
  rw [hmap, Function.update_apply]
  split
  · rename_i heq
    subst heq
    constructor
    · rintro ⟨⟩
      exact ⟨_, f, hlive.mpr (.inl ⟨rfl, rfl⟩), rfl, rfl⟩
    · rintro ⟨j, g, hg, htitle, rfl⟩
      rcases hlive.mp hg with ⟨rfl, -⟩ | hg
      · rfl
      · exact absurd htitle (hfree j g hg)
  · rename_i hne
    rw [h.index]
    constructor
    · rintro ⟨j, g, hg, hrest⟩
      exact ⟨j, g, hlive.mpr (.inr hg), hrest⟩
    · rintro ⟨j, g, hg, rfl, rfl⟩
      rcases hlive.mp hg with ⟨-, rfl⟩ | hg
      · exact absurd rfl hne
      · exact ⟨j, g, hg, rfl, rfl⟩

/-- A film is taken out of the array and of the index. -/
theorem DatabaseInv.delete (h : DatabaseInv db) (index : Int) : DatabaseInv (dbDelete db index) := by
  cases hget : dbGet db index with
  | none =>
      rw [dbDelete_eq_self hget]
      exact h
  | some f =>
      obtain ⟨i, rfl, hf⟩ := exists_live_of_dbGet hget
      obtain ⟨hwf, hmap, -⟩ := htDeleteKey_spec h.wf f.title
      have hlength := (List.getElem?_eq_some_iff.mp hf.2).1
      rw [dbDelete_of_live hf]
      refine ⟨hwf, by rw [List.length_set, h.array], h.curLe, fun title bytes => ?_⟩
      have hlive {j : Nat} {g : Film} : Live ⟨db.films.set i none,
          (htDeleteKey sizeHash db.idMap f.title).1, db.curFilms⟩ j g ↔ j ≠ i ∧ Live db j g := by
        have hset := live_set db g none j hlength
        rw [Live, Live]
        dsimp only at hset ⊢
        rw [hset]
        simp only [reduceCtorEq, and_false, false_or]
        exact and_left_comm
      dsimp only
      rw [hmap, Function.update_apply]
      split
      · rename_i heq
        subst heq
        simp only [reduceCtorEq, false_iff, not_exists, not_and]
        intro j g hg htitle
        obtain ⟨hne, hg⟩ := hlive.mp hg
        exact absurd (h.title_injective hg hf htitle) hne
      · rename_i hne
        rw [h.index]
        constructor
        · rintro ⟨j, g, hg, rfl, hbytes⟩
          refine ⟨j, g, hlive.mpr ⟨?_, hg⟩, rfl, hbytes⟩
          rintro rfl
          exact hne (congrArg Film.title (hg.unique hf))
        · rintro ⟨j, g, hg, hrest⟩
          exact ⟨j, g, (hlive.mp hg).2, hrest⟩

/-- An update puts the new film under the old id and leaves the index as it is. -/
theorem DatabaseInv.update_eq (h : DatabaseInv db) (hf : Live db i f) (value : Option Film) :
    ∃ db', dbUpdate db f.title value = some db' ∧ db'.films = db.films.set i value ∧
      db'.curFilms = db.curFilms ∧ db'.idMap.Wf sizeHash ∧
      db'.idMap.bindings sizeHash = db.idMap.bindings sizeHash := by
  obtain ⟨hwf, hmap, -⟩ := htDeleteKey_spec h.wf f.title
  obtain ⟨hwf', hmap', -⟩ := htSetValue_spec hwf f.title (bytesOfInt i)
  refine ⟨_, dbUpdate_of_live (h.dbGetId_eq hf) hf h.curLe value, rfl, rfl, hwf', ?_⟩
  dsimp only
  rw [hmap', hmap, Function.update_idem, ← h.bound hf, Function.update_eq_self]

/-- After an update the index agrees with the array exactly when the new film has the old title. -/
theorem DatabaseInv.update_agrees_iff (h : DatabaseInv db) (hf : Live db i f) {value : Option Film}
    (hupdate : dbUpdate db f.title value = some db') :
    (DatabaseInv db' ↔ ∃ g, value = some g ∧ g.title = f.title) ∧
      (IndexAgrees db' → ∃ g, value = some g ∧ g.title = f.title) := by
  obtain ⟨db'', hdb'', hfilms, hcur, hwf, hmap⟩ := h.update_eq hf value
  rw [hupdate] at hdb''
  cases hdb''
  have hlength := (List.getElem?_eq_some_iff.mp hf.2).1
  have hlive {j : Nat} {g : Film} : Live db' j g ↔
      (j = i ∧ value = some g) ∨ (j ≠ i ∧ Live db j g) := by
    have hset := live_set db g value j hlength
    have hi := hf.1
    rw [Live, Live, hfilms, hcur]
    dsimp only at hset
    rw [hset]
    constructor
    · rintro ⟨hj, ⟨rfl, hvalue⟩ | ⟨hne, hget⟩⟩
      · exact .inl ⟨rfl, hvalue⟩
      · exact .inr ⟨hne, hj, hget⟩
    · rintro (⟨rfl, hvalue⟩ | ⟨hne, hj, hget⟩)
      · exact ⟨hi, .inl ⟨rfl, hvalue⟩⟩
      · exact ⟨hj, .inr ⟨hne, hget⟩⟩
  have hnecessary (hagrees : IndexAgrees db') : ∃ g, value = some g ∧ g.title = f.title := by
    have hbinds : IdMapBinds db' f.title i := by
      rw [idMapBinds_iff, hmap]
      exact ⟨_, h.bound hf, rfl, intAt_bytesOfInt (h.lt hf)⟩
    obtain ⟨-, g, hg, htitle⟩ := (hagrees f.title i).mp hbinds
    rw [Int.toNat_natCast] at hg
    rcases hlive.mp hg with ⟨-, hvalue⟩ | ⟨hne, -⟩
    · exact ⟨g, hvalue, htitle⟩
    · exact absurd rfl hne
  refine ⟨⟨fun hinv => hnecessary hinv.indexAgrees, ?_⟩, hnecessary⟩
  rintro ⟨g, rfl, htitle⟩
  refine ⟨hwf, by rw [hfilms, List.length_set, h.array], by rw [hcur]; exact h.curLe, fun title bytes => ?_⟩
  rw [hmap, h.index]
  constructor
  · rintro ⟨j, g', hg', rfl, rfl⟩
    by_cases hj : j = i
    · subst hj
      obtain rfl := hg'.unique hf
      exact ⟨j, g, hlive.mpr (.inl ⟨rfl, rfl⟩), htitle, rfl⟩
    · exact ⟨j, g', hlive.mpr (.inr ⟨hj, hg'⟩), rfl, rfl⟩
  · rintro ⟨j, g', hg', rfl, rfl⟩
    rcases hlive.mp hg' with ⟨rfl, ⟨⟩⟩ | ⟨-, hg'⟩
    · exact ⟨j, f, hf, htitle.symm, rfl⟩
    · exact ⟨j, g', hg', rfl, rfl⟩

end Operations

/-! ### Requests -/

/-- The data of a PUT request on a film in the array, if it has any, is a film with the same title. -/
def KeepsTitle (json : Json) (db : Database) : Request → Prop
  | .film id .put (some data) => ∀ f, dbGet db id = some f →
      ∃ g, (parseFilm json data).2 = some g ∧ g.title = f.title
  | _ => True

section Runs

variable {json : Json} {db db' : Database} {req : Request}

/-- The status of `parse_film` is never negative. -/
theorem parseFilm_status (json : Json) (data : Bytes) : ¬(parseFilm json data).1 < 0 := by
  unfold parseFilm
  cases fieldNames.mapM (json data) with
  | none => exact Int.not_lt.mpr Int.one_nonneg
  | some fields => exact Int.lt_irrefl 0

/-- The test of the status never fires: a PUT on a film always updates. -/
theorem filmResourceUpdate_eq (json : Json) (db : Database) (data : Bytes) (f : Film) :
    filmResourceUpdate json db (some data) f =
      (dbUpdate db f.title (parseFilm json data).2).map fun db => (db, .ok) :=
  if_neg (parseFilm_status json data)

theorem filmCollection_inv (h : DatabaseInv db) {method : Method} {fullpath : String} {data : Bytes}
    (hreq : Handled json db (.collection method fullpath data) db') : DatabaseInv db' := by
  obtain ⟨response, hreq⟩ := hreq
  rw [handle] at hreq
  cases method with
  | post =>
      rw [filmCollection, addFilm] at hreq
      split at hreq
      swap
      · cases hreq
        exact h
      split at hreq
      · cases hreq
        exact h
      split at hreq
      · cases hreq
        exact h
      rename_i f _ _ hnew
      simp only [Option.bind_eq_some_iff, Option.map_eq_some_iff, Prod.mk.injEq] at hreq
      obtain ⟨db', hadd, id, -, rfl, -⟩ := hreq
      exact h.add (by simpa using hnew) hadd
  | delete =>
      cases hreq
      exact databaseInv_dbCreate
  | get | put | other =>
      cases hreq
      exact h

/-- A request keeps the index in agreement with the array exactly when it keeps the title. -/
theorem handled_agrees (h : DatabaseInv db) (hreq : Handled json db req db') :
    (KeepsTitle json db req → DatabaseInv db') ∧ (IndexAgrees db' → KeepsTitle json db req) := by
  cases req with
  | collection method fullpath data =>
      exact ⟨fun _ => filmCollection_inv h hreq, fun _ => trivial⟩
  | film id method data =>
      obtain ⟨response, hreq⟩ := hreq
      rw [handle, filmResource] at hreq
      cases hget : dbGet db id with
      | none =>
          rw [hget] at hreq
          cases hreq
          refine ⟨fun _ => h, fun _ => ?_⟩
          cases method <;> cases data <;> first | trivial | (intro f hf; rw [hget] at hf; cases hf)
      | some f =>
          obtain ⟨-, hf⟩ := dbGet_eq_some_iff.mp hget
          rw [hget] at hreq
          cases method with
          | put =>
              cases data with
              | none =>
                  cases hreq
                  exact ⟨fun _ => h, fun _ => trivial⟩
              | some data =>
                  dsimp only at hreq
                  rw [filmResourceUpdate_eq, Option.map_eq_some_iff] at hreq
                  obtain ⟨next, hupdate, heq⟩ := hreq
                  cases heq
                  have hkeeps : KeepsTitle json db (.film id .put (some data)) ↔
                      ∃ g, (parseFilm json data).2 = some g ∧ g.title = f.title := by
                    rw [KeepsTitle, hget]
                    simp
                  obtain ⟨hiff, hnecessary⟩ := h.update_agrees_iff hf hupdate
                  rw [hkeeps]
                  exact ⟨hiff.mpr, hnecessary⟩
          | delete =>
              cases hreq
              exact ⟨fun _ => h.delete id, fun _ => by cases data <;> trivial⟩
          | get | post | other =>
              cases hreq
              exact ⟨fun _ => h, fun _ => by cases data <;> trivial⟩

/-- **The title index.** In every state that requests lead to of which no PUT changes the title of a
film, the index binds exactly the titles of the films in the array to their ids; so no two films have
the same title, `db_contains` finds exactly these titles, and `db_get_id` their ids. The next request
keeps the agreement if and only if it is no PUT that changes a title or stores no film. -/
theorem title_index_agrees (json : Json) (requests : List Request) (db : Database)
    (hrun : Run (Guarded (KeepsTitle json) (Handled json)) dbCreate requests db) :
    IndexAgrees db ∧
      (∀ i j f g, Live db i f → Live db j g → f.title = g.title → i = j) ∧
      (∀ title, dbContains db title = true ↔ ∃ i f, Live db i f ∧ f.title = title) ∧
      (∀ i f, Live db i f → dbGetId db f.title = some (i : Int)) ∧
      ∀ req db', Handled json db req db' → (IndexAgrees db' ↔ KeepsTitle json db req) := by
  have hstep (db : Database) (req : Request) (db' : Database) (hinv : DatabaseInv db)
      (hreq : Guarded (KeepsTitle json) (Handled json) db req db') : DatabaseInv db' :=
    (handled_agrees hinv hreq.2).1 hreq.1
  have h := hrun.invariant hstep databaseInv_dbCreate
  refine ⟨h.indexAgrees, fun i j f g => h.title_injective, h.dbContains_iff,
    fun i f => h.dbGetId_eq, fun req db' hreq => ⟨(handled_agrees h hreq).2, fun hkeeps => ?_⟩⟩
  exact ((handled_agrees h hreq).1 hkeeps).indexAgrees

end Runs

/-- A film of which every field is one letter, as JSON text. There is a line for each field. -/
def text (c : UInt8) : Bytes := [
  123, 34, 116, 105, 116, 108, 101, 34, 58, 34, c, 34,
  44, 34, 111, 114, 105, 103, 105, 110, 97, 108, 84, 105, 116, 108, 101, 34, 58, 34, c, 34,
  44, 34, 112, 114, 111, 100, 117, 99, 116, 105, 111, 110, 89, 101, 97, 114, 34, 58, 34, c, 34,
  44, 34, 108, 101, 110, 103, 116, 104, 34, 58, 34, c, 34,
  44, 34, 100, 105, 114, 101, 99, 116, 111, 114, 34, 58, 34, c, 34,
  44, 34, 97, 99, 116, 111, 114, 115, 34, 58, 34, c, 34, 125]

/-- What the library finds in such a text: every item is the letter of the title. -/
def testJson : Json := fun s _ => s[10]?.map ([·])

def postA : Request := .collection .post "/films" (text 97)

def putA : Request := .film 0 .put (some (text 97))

def putB : Request := .film 0 .put (some (text 98))

/-- The database after a request that is handled. -/
def testAfter (db : Database) (req : Request) : Database :=
  ((handle testJson db req).map (·.1)).getD db

theorem handled_testAfter {db : Database} {req : Request} (h : (handle testJson db req).isSome = true) :
    Handled testJson db req (testAfter db req) := by
  obtain ⟨result, hresult⟩ := Option.isSome_iff_exists.mp h
  exact ⟨result.2, by rw [testAfter, hresult]; rfl⟩

theorem title_index_agrees_sameTitle :
    IndexAgrees (testAfter (testAfter dbCreate postA) putA) := by
  have hkeeps : KeepsTitle testJson (testAfter dbCreate postA) putA := by
    have hfilm : dbGet (testAfter dbCreate postA) 0 = some ⟨List.replicate 6 [97]⟩ := by
      decide +kernel
    intro f hf
    rw [hfilm] at hf
    cases hf
    exact ⟨⟨List.replicate 6 [97]⟩, by decide +kernel, rfl⟩
  exact (title_index_agrees testJson [postA, putA] _
    (.cons ⟨trivial, handled_testAfter (by decide +kernel)⟩
      (.single ⟨hkeeps, handled_testAfter (by decide +kernel)⟩))).1

/-- A PUT that changes the title from `a` to `b` leaves the index with the old title: it finds `a`, which
no film has, and not `b`. -/
theorem put_changes_title :
    ∃ db, Run (Handled testJson) dbCreate [postA, putB] db ∧ ¬IndexAgrees db ∧
      dbContains db [97] = true ∧ dbContains db [98] = false ∧
      dbGet db 0 = some ⟨List.replicate 6 [98]⟩ := by
  have hfilm : dbGet (testAfter (testAfter dbCreate postA) putB) 0 = some ⟨List.replicate 6 [98]⟩ := by
    decide +kernel
  refine ⟨testAfter (testAfter dbCreate postA) putB,
    .cons (handled_testAfter (by decide +kernel)) (.single (handled_testAfter (by decide +kernel))),
    fun hagrees => ?_, by decide +kernel, by decide +kernel, hfilm⟩
  have hbinds : IdMapBinds (testAfter (testAfter dbCreate postA) putB) [97] 0 :=
    ⟨bytesOfInt 0, by decide +kernel, rfl⟩
  obtain ⟨-, f, hf, htitle⟩ := (hagrees [97] 0).mp hbinds
  rw [dbGet_eq_some_iff.mpr ⟨le_rfl, hf⟩] at hfilm
  cases hfilm
  cases htitle

end ComputerNetworking.Movies
