import ComputerNetworking.FilmRequests

/-! The slots of the film array that requests use: which film a PUT or a DELETE changes, and whether an index
leaves the array. -/

namespace ComputerNetworking.Movies

open Dht Transition NumeralScan

/-! ### One film at a time -/

/-- A request is answered as processed, puts something under one id and nothing under any other, and uses
no other index. -/
structure TouchesOnly (json : Json) (db : Database) (i : Nat) (slot : Option Film) (req : UrlRequest) :
    Prop where
  films : ∃ after, handleUrl json db req = some (after, .ok) ∧ after.films[i]? = some slot ∧
    ∀ j, j ≠ i → after.films[j]? = db.films[j]?
  indices : ∀ k ∈ filmIndices json db req, k = i

section Frame

variable {json : Json} {db : Database} {f g : Film} {i : Nat}

theorem dbGet_of_live (h : Live db i f) : dbGet db i = some f :=
  dbGet_eq_some_iff.mpr ⟨Int.natCast_nonneg i, h⟩

theorem live_of_dbGet (h : dbGet db i = some f) : Live db i f :=
  (dbGet_eq_some_iff.mp h).2

theorem checkedIndices_of_live (h : Live db i f) : checkedIndices db i = [(i : Int)] := by
  have hi := h.1
  rw [checkedIndices, if_neg (by omega)]

/-- A film is found under the number that its id is printed as. -/
theorem DatabaseShape.scanIndex_live (h : DatabaseShape db) (hf : Live db i f) (other : Unscanned) :
    scanIndex other (toString i) = i :=
  scanIndex_toString other (h.lt hf.1.le)

theorem set_touchesOnly (h : Live db i f) (slot : Option Film) :
    (db.films.set i slot)[i]? = some slot ∧ ∀ j, j ≠ i → (db.films.set i slot)[j]? = db.films[j]? :=
  ⟨List.getElem?_set_self (List.getElem?_eq_some_iff.mp h.2).1,
    fun _ hj => List.getElem?_set_ne (Ne.symm hj)⟩

/-- The index of a title, as the table finds it. -/
theorem idMapBinds_of_dbGetId {title : Bytes} (h : dbGetId db title = some (i : Int)) :
    IdMapBinds db title i := by
  rw [dbGetId] at h
  rw [IdMapBinds]
  rw [htGetValue_eq] at h ⊢
  cases hbound : db.idMap.bindings sizeHash title with
  | none =>
      rw [hbound] at h
      cases h
  | some bytes =>
      rw [hbound] at h
      dsimp only at h
      split at h
      · rename_i hlength
        exact ⟨bytes, congrArg (fun n => (0, some bytes, n)) hlength, Option.some.inj h⟩
      · cases h

theorem dbGetId_of_idMapBinds {title : Bytes} {id : Int} (h : IdMapBinds db title id) :
    dbGetId db title = some id := by
  obtain ⟨bytes, hfound, rfl⟩ := h
  rw [dbGetId, hfound]
  rfl

/-- An update whose title has the id of the film in the index. -/
theorem dbUpdate_of_idMapBinds (h : DatabaseShape db) (hf : Live db i f)
    (hbinds : IdMapBinds db f.title i) (value : Option Film) : ∃ after,
      dbUpdate db f.title value = some after ∧ after.films = db.films.set i value ∧
        after.curFilms = db.curFilms := by
  exact ⟨_, dbUpdate_of_live (dbGetId_of_idMapBinds hbinds) hf h.curLe value, rfl, rfl⟩

/-- The index of a POST of a film. -/
theorem filmIndices_post {data : Bytes} {status : Int} (hparse : parseFilm json data = (status, some f))
    (fullpath : String) : filmIndices json db (.collection .post fullpath data) =
      if dbContains db f.title then [] else [(db.curFilms : Int)] := by
  unfold filmIndices
  dsimp only
  rw [hparse]

theorem filmIndices_post_none {data : Bytes} {status : Int} (hparse : parseFilm json data = (status, none))
    (fullpath : String) : filmIndices json db (.collection .post fullpath data) = [] := by
  unfold filmIndices
  dsimp only
  rw [hparse]

/-- The indices of a PUT and of a DELETE on a film. -/
theorem filmIndices_put {id : String} {getIndex : Unscanned} (hget : dbGet db (scanIndex getIndex id) = some f)
    (deleteIndex : Unscanned) (data : Bytes) :
    filmIndices json db (.film id getIndex deleteIndex .put (some data)) =
      checkedIndices db (scanIndex getIndex id) ++ (dbGetId db f.title).toList := by
  unfold filmIndices
  dsimp only
  rw [hget]

theorem filmIndices_delete {id : String} {getIndex : Unscanned}
    (hget : dbGet db (scanIndex getIndex id) = some f) (deleteIndex : Unscanned) (data : Option Bytes) :
    filmIndices json db (.film id getIndex deleteIndex .delete data) =
      checkedIndices db (scanIndex getIndex id) ++ checkedIndices db (scanIndex deleteIndex id) := by
  unfold filmIndices
  dsimp only
  rw [hget]

/-- Only slots at the indices of a request are changed, unless all films are deleted. -/
theorem films_unchanged (h : DatabaseShape db) {req : UrlRequest} {next : Database}
    (hreset : ∀ fullpath data, req ≠ .collection .delete fullpath data) (hserved : Served json db req next)
    {j : Nat} (hj : (j : Int) ∉ filmIndices json db req) : next.films[j]? = db.films[j]? := by
  have hset {k : Nat} {slot : Option Film} (hk : (k : Int) ∈ filmIndices json db req) :
      (db.films.set k slot)[j]? = db.films[j]? := by
    apply List.getElem?_set_ne
    intro heq
    exact hj (heq ▸ hk)
  rcases hserved.cases with ⟨rfl, -⟩ | ⟨fullpath, data, response, rfl, hadd⟩ | ⟨fullpath, data, rfl, -⟩ |
    ⟨id, getIndex, deleteIndex, data, f, rfl, hget, hupdate⟩ |
    ⟨id, getIndex, deleteIndex, data, f, rfl, hget, rfl⟩
  · rfl
  · rcases h.addFilm_cases hadd with ⟨rfl, -⟩ | ⟨f, hparse, hnew, hadd, -⟩
    · rfl
    · obtain ⟨-, rfl⟩ := dbAdd_eq_some_iff.mp hadd
      apply hset
      have hpair : parseFilm json data = ((parseFilm json data).1, some f) := Prod.ext rfl hparse
      rw [filmIndices_post hpair, hnew]
      exact List.mem_singleton.mpr rfl
  · exact absurd rfl (hreset fullpath data)
  · obtain ⟨k, -, hid, -, hfilms, -⟩ := h.update_cases hupdate
    rw [hfilms]
    apply hset
    rw [filmIndices_put hget, hid]
    exact List.mem_append_right _ (List.mem_singleton.mpr rfl)
  · cases hdelete : dbGet db (scanIndex deleteIndex id) with
    | none => rw [dbDelete_eq_self hdelete]
    | some g =>
        obtain ⟨k, hk, hlive⟩ := exists_live_of_dbGet hdelete
        rw [hk, dbDelete_of_live hlive]
        apply hset
        rw [filmIndices_delete hget, hk, checkedIndices_of_live hlive]
        exact List.mem_append_right _ (List.mem_singleton.mpr rfl)

/-- A request that is not served has an index under which there is no film. -/
theorem exists_index_of_not_served (h : DatabaseShape db) {req : UrlRequest}
    (hnone : handleUrl json db req = none) : ∃ k ∈ filmIndices json db req, dbGet db k = none := by
  cases req with
  | collection method fullpath data =>
      cases method with
      | post =>
          cases hparse : parseFilm json data with
          | mk status film =>
              have hstatus := parseFilm_status json data
              rw [handleUrl, filmCollection, addFilm, hparse] at hnone
              rw [hparse] at hstatus
              cases film with
              | none => cases hnone
              | some f =>
                  dsimp only at hnone
                  rw [if_neg hstatus] at hnone
                  split at hnone
                  · cases hnone
                  · rename_i hnew
                    refine ⟨db.curFilms, ?_, if_pos (.inl le_rfl)⟩
                    rw [filmIndices_post hparse, if_neg hnew]
                    exact List.mem_singleton.mpr rfl
      | get | put | delete | other => cases hnone
  | film id getIndex deleteIndex method data =>
      rw [handleUrl] at hnone
      cases hget : dbGet db (scanIndex getIndex id) with
      | none =>
          rw [hget] at hnone
          cases hnone
      | some g =>
          rw [hget] at hnone
          cases method with
          | put =>
              cases data with
              | none => cases hnone
              | some data =>
                  dsimp only at hnone
                  rw [filmResourceUpdate_eq, Option.map_eq_none_iff] at hnone
                  rcases h.dbGetId_cases g.title with ⟨-, hid⟩ | ⟨i, -, -, hid, -⟩
                  · refine ⟨-1, ?_, if_pos (.inr (by decide))⟩
                    rw [filmIndices_put hget, hid]
                    exact List.mem_append_right _ (List.mem_singleton.mpr rfl)
                  · refine ⟨i, ?_, ?_⟩
                    · rw [filmIndices_put hget, hid]
                      exact List.mem_append_right _ (List.mem_singleton.mpr rfl)
                    · cases hfilm : dbGet db i with
                      | none => rfl
                      | some f =>
                          rw [dbUpdate_of_live hid (live_of_dbGet hfilm) h.curLe] at hnone
                          cases hnone
          | get | post | delete | other => cases hnone

theorem delete_touchesOnly (h : DatabaseShape db) (hf : Live db i f) (getIndex deleteIndex : Unscanned)
    (data : Option Bytes) :
    TouchesOnly json db i none (.film (toString i) getIndex deleteIndex .delete data) := by
  have hget : dbGet db (scanIndex getIndex (toString i)) = some f := by
    rw [h.scanIndex_live hf, dbGet_of_live hf]
  obtain ⟨hself, hothers⟩ := set_touchesOnly hf none
  refine ⟨⟨dbDelete db i, ?_, ?_⟩, ?_⟩
  · rw [handleUrl, hget, h.scanIndex_live hf]
  · rw [dbDelete_of_live hf]
    exact ⟨hself, hothers⟩
  · rw [filmIndices_delete hget, h.scanIndex_live hf, h.scanIndex_live hf, checkedIndices_of_live hf]
    simp

theorem put_touchesOnly_iff (h : DatabaseShape db) (hf : Live db i f) (getIndex deleteIndex : Unscanned)
    {data : Bytes} (hparse : (parseFilm json data).2 = some g) :
    TouchesOnly json db i (some g) (.film (toString i) getIndex deleteIndex .put (some data)) ↔
      IdMapBinds db f.title i := by
  have hget : dbGet db (scanIndex getIndex (toString i)) = some f := by
    rw [h.scanIndex_live hf, dbGet_of_live hf]
  have hindices : filmIndices json db (.film (toString i) getIndex deleteIndex .put (some data)) =
      (i : Int) :: (dbGetId db f.title).toList := by
    rw [filmIndices_put hget, h.scanIndex_live hf, checkedIndices_of_live hf]
    rfl
  have hhandle : handleUrl json db (.film (toString i) getIndex deleteIndex .put (some data)) =
      (dbUpdate db f.title (some g)).map fun db => (db, .ok) := by
    rw [handleUrl, hget]
    dsimp only
    rw [filmResourceUpdate_eq, hparse]
  constructor
  · intro htouches
    obtain ⟨after, hafter, -⟩ := htouches.films
    rw [hhandle, Option.map_eq_some_iff] at hafter
    obtain ⟨after, hupdate, -⟩ := hafter
    obtain ⟨id, -, hid, -⟩ := h.update_cases hupdate
    have hmem : (id : Int) ∈ filmIndices json db
        (.film (toString i) getIndex deleteIndex .put (some data)) := by
      rw [hindices, hid]
      exact List.mem_cons_of_mem _ (List.mem_singleton.mpr rfl)
    have heq := htouches.indices _ hmem
    exact idMapBinds_of_dbGetId (hid.trans (congrArg some heq))
  · intro hbinds
    obtain ⟨after, hupdate, hfilms, -⟩ := dbUpdate_of_idMapBinds h hf hbinds (some g)
    refine ⟨⟨after, by rw [hhandle, hupdate]; rfl, ?_⟩, ?_⟩
    · rw [hfilms]
      exact set_touchesOnly hf (some g)
    · rw [hindices, dbGetId_of_idMapBinds hbinds]
      simp

/-- **One film at a time.** In every state that requests lead to, a DELETE of a film takes out this film
and nothing else. A PUT with the data of a film replaces the film and nothing else exactly if the index
has the id of the film under its title. -/
theorem put_delete_touches_only_iff (json : Json) (requests : List UrlRequest) (db : Database)
    (hrun : Run (Served json) dbCreate requests db) (i : Nat) (f : Film) (hf : Live db i f)
    (getIndex deleteIndex : Unscanned) :
    (∀ data, TouchesOnly json db i none (.film (toString i) getIndex deleteIndex .delete data)) ∧
      ∀ data g, (parseFilm json data).2 = some g →
        (TouchesOnly json db i (some g) (.film (toString i) getIndex deleteIndex .put (some data)) ↔
          IdMapBinds db f.title i) := by
  have hshape := databaseShape_of_run hrun
  exact ⟨fun data => delete_touchesOnly hshape hf getIndex deleteIndex data,
    fun data g hparse => put_touchesOnly_iff hshape hf getIndex deleteIndex hparse⟩

end Frame

/-- The first film, after it was added, with another title, and after a film with this title was added. -/
def dbA : Database := servedAfter dbCreate (postFilm 97)

def dbB : Database := servedAfter dbA (putFilm (toString 0) 98)

def dbBB : Database := servedAfter dbB (postFilm 98)

theorem run_dbA : Run (Served testJson) dbCreate [postFilm 97] dbA :=
  .single (served_servedAfter (by decide +kernel))

theorem run_dbB : Run (Served testJson) dbCreate [postFilm 97, putFilm (toString 0) 98] dbB :=
  run_dbA.append (.single (served_servedAfter (by decide +kernel)))

theorem run_dbBB :
    Run (Served testJson) dbCreate [postFilm 97, putFilm (toString 0) 98, postFilm 98] dbBB :=
  run_dbB.append (.single (served_servedAfter (by decide +kernel)))

theorem put_delete_touches_only_iff_first :
    TouchesOnly testJson dbA 0 (some (letterFilm 98)) (putFilm (toString 0) 98) :=
  ((put_delete_touches_only_iff testJson _ dbA run_dbA 0 (letterFilm 97)
    (live_of_dbGet (by decide +kernel)) (.glibc 0) (.glibc 0)).2 (text 98) (letterFilm 98) (by decide +kernel)).mpr
      ⟨bytesOfInt 0, by decide +kernel, rfl⟩

/-- After the first film has taken the title of a film that is added later, a PUT on the first film
replaces the other one. -/
theorem put_overwrites_other_film :
    ∃ db, Run (Served testJson) dbCreate [postFilm 97, putFilm (toString 0) 98, postFilm 98] db ∧
      Live db 0 (letterFilm 98) ∧
      (handleUrl testJson db (putFilm (toString 0) 99)).map (fun r => (r.2, dbGet r.1 0, dbGet r.1 1)) =
        some (.ok, some (letterFilm 98), some (letterFilm 99)) ∧
      ¬∀ json requests db, Run (Served json) dbCreate requests db → ∀ i f, Live db i f →
        ∀ getIndex deleteIndex data g, (parseFilm json data).2 = some g →
          TouchesOnly json db i (some g) (.film (toString i) getIndex deleteIndex .put (some data)) := by
  have hlive : Live dbBB 0 (letterFilm 98) := live_of_dbGet (by decide +kernel)
  have hother : (handleUrl testJson dbBB (putFilm (toString 0) 99)).map
      (fun r => (r.2, dbGet r.1 0, dbGet r.1 1)) =
        some (.ok, some (letterFilm 98), some (letterFilm 99)) := by
    decide +kernel
  refine ⟨dbBB, run_dbBB, hlive, hother, fun h => ?_⟩
  obtain ⟨after, hafter, hslot, -⟩ := (h testJson _ dbBB run_dbBB 0 (letterFilm 98) hlive (.glibc 0)
    (.glibc 0) (text 99) (letterFilm 99) (by decide +kernel)).films
  have hhandled : handleUrl testJson dbBB (putFilm (toString 0) 99) = some (after, .ok) := hafter
  rw [hhandled] at hother
  have hfirst : dbGet after 0 = some (letterFilm 98) := by
    simp only [Option.map_some, Option.some.injEq, Prod.mk.injEq] at hother
    exact hother.2.1
  have hfilm := (live_of_dbGet hfirst).2
  rw [hslot] at hfilm
  exact absurd hfilm (by decide)

/-! ### Bounds -/

/-- The request uses no index outside of the array, and a POST to a full array is refused. -/
structure StaysInArray (json : Json) (db : Database) (req : UrlRequest) : Prop where
  bounds : ∀ k ∈ filmIndices json db req, 0 ≤ k ∧ k < maxFilms
  full : db.curFilms = maxFilms → ∀ fullpath data, req = .collection .post fullpath data →
    handleUrl json db req = some (db, .notFound)

/-- A new film has a free slot, and the film of a PUT has its title in the index. -/
def HasSlot (json : Json) (db : Database) : UrlRequest → Prop
  | .collection .post _ data => ∀ f, (parseFilm json data).2 = some f → dbContains db f.title = false →
      db.curFilms < maxFilms
  | .film id getIndex _ .put (some _) => ∀ f, dbGet db (scanIndex getIndex id) = some f →
      dbContains db f.title = true
  | _ => True

section Bounds

variable {json : Json} {db : Database}

theorem checkedIndices_bounds (h : DatabaseShape db) (index : Int) :
    ∀ k ∈ checkedIndices db index, 0 ≤ k ∧ k < maxFilms := by
  have hcur := h.curLe
  unfold checkedIndices
  split
  · intro k hk
    cases hk
  · intro k hk
    rw [List.mem_singleton.mp hk]
    omega

theorem dbGetId_bounds_iff (h : DatabaseShape db) (title : Bytes) :
    (∀ k ∈ (dbGetId db title).toList, 0 ≤ k ∧ k < maxFilms) ↔ dbContains db title = true := by
  have hcur := h.curLe
  rcases h.dbGetId_cases title with ⟨hnew, hid⟩ | ⟨i, hi, hold, hid, -⟩
  · rw [hid, hnew]
    simp
  · rw [hid, hold]
    simp
    omega

theorem post_staysInArray_iff (fullpath : String) (data : Bytes) :
    StaysInArray json db (.collection .post fullpath data) ↔
      HasSlot json db (.collection .post fullpath data) := by
  cases hparse : parseFilm json data with
  | mk status film =>
      have hstatus := parseFilm_status json data
      rw [hparse] at hstatus
      cases film with
      | none =>
          refine iff_of_true ⟨?_, fun _ _ _ _ => ?_⟩ ?_
          · rw [filmIndices_post_none hparse]
            simp
          · rw [handleUrl, filmCollection, addFilm, hparse]
          · intro f hf
            rw [hparse] at hf
            cases hf
      | some f =>
          cases hold : dbContains db f.title with
          | true =>
              refine iff_of_true ⟨?_, fun _ _ _ _ => ?_⟩ ?_
              · rw [filmIndices_post hparse, hold]
                simp
              · rw [handleUrl, filmCollection, addFilm, hparse]
                dsimp only
                rw [if_neg hstatus, if_pos hold]
              · intro g hg hnew
                rw [hparse] at hg
                cases hg
                rw [hold] at hnew
                cases hnew
          | false =>
              have hindices : filmIndices json db (.collection .post fullpath data) = [(db.curFilms : Int)] := by
                rw [filmIndices_post hparse, hold]
                rfl
              constructor
              · intro hstays g _ _
                have hbounds := hstays.bounds db.curFilms (by rw [hindices]; exact List.mem_cons_self)
                omega
              · intro hslot
                have hroom := hslot f (by rw [hparse]) hold
                refine ⟨?_, fun hfull => absurd hfull (by omega)⟩
                rw [hindices]
                intro k hk
                rw [List.mem_singleton.mp hk]
                omega

theorem film_indices_iff (h : DatabaseShape db) (id : String) (getIndex deleteIndex : Unscanned)
    (method : Method) (data : Option Bytes) :
    (∀ k ∈ filmIndices json db (.film id getIndex deleteIndex method data), 0 ≤ k ∧ k < maxFilms) ↔
      HasSlot json db (.film id getIndex deleteIndex method data) := by
  have hchecked := checkedIndices_bounds h
  have happend (index : Int) (rest : List Int) :
      (∀ k ∈ checkedIndices db index ++ rest, 0 ≤ k ∧ k < maxFilms) ↔
        ∀ k ∈ rest, 0 ≤ k ∧ k < maxFilms := by
    rw [List.forall_mem_append]
    exact and_iff_right (hchecked index)
  unfold filmIndices
  rw [happend]
  cases hget : dbGet db (scanIndex getIndex id) with
  | none =>
      apply iff_of_true (fun k hk => by cases hk)
      cases method <;> cases data <;> first | trivial | (intro f hf; rw [hget] at hf; cases hf)
  | some f =>
      cases method with
      | put =>
          cases data with
          | none => exact iff_of_true (fun k hk => by cases hk) trivial
          | some data =>
              have hslot : HasSlot json db (.film id getIndex deleteIndex .put (some data)) ↔
                  dbContains db f.title = true := by
                rw [HasSlot, hget]
                simp
              rw [hslot]
              exact dbGetId_bounds_iff h f.title
      | delete => exact iff_of_true (hchecked _) (by cases data <;> trivial)
      | get | post | other => exact iff_of_true (fun k hk => by cases hk) (by cases data <;> trivial)

/-- **The bounds of the array.** In every state that requests lead to there are at most as many films as
slots. The next request stays in the array exactly if it is no POST of a new film to a full array and no
PUT on a film whose title is not in the index. -/
theorem film_array_bounds_iff (json : Json) (requests : List UrlRequest) (db : Database)
    (hrun : Run (Served json) dbCreate requests db) :
    db.curFilms ≤ maxFilms ∧ ∀ req, StaysInArray json db req ↔ HasSlot json db req := by
  have hshape := databaseShape_of_run hrun
  refine ⟨hshape.curLe, fun req => ?_⟩
  cases req with
  | collection method fullpath data =>
      cases method with
      | post => exact post_staysInArray_iff fullpath data
      | get | put | delete | other =>
          refine iff_of_true ⟨?_, ?_⟩ trivial
          · intro k hk
            cases hk
          · rintro - _ _ ⟨⟩
  | film id getIndex deleteIndex method data =>
      have hindices : _ ↔ HasSlot json db (.film id getIndex deleteIndex method data) :=
        film_indices_iff hshape id getIndex deleteIndex method data
      exact ⟨fun h => hindices.mp h.bounds, fun h => ⟨hindices.mpr h, by rintro - _ _ ⟨⟩⟩⟩

end Bounds

theorem film_array_bounds_iff_second : StaysInArray testJson dbA (postFilm 98) :=
  ((film_array_bounds_iff testJson _ dbA run_dbA).2 _).mpr fun _ _ _ => by decide +kernel

/-- A film of which every field is the same text, as JSON text. There is a line for each field. -/
def titledText (t : Bytes) : Bytes :=
  [123, 34, 116, 105, 116, 108, 101, 34, 58, 34] ++ (t ++ ([34,
  44, 34, 111, 114, 105, 103, 105, 110, 97, 108, 84, 105, 116, 108, 101, 34, 58, 34] ++ t ++ [34,
  44, 34, 112, 114, 111, 100, 117, 99, 116, 105, 111, 110, 89, 101, 97, 114, 34, 58, 34] ++ t ++ [34,
  44, 34, 108, 101, 110, 103, 116, 104, 34, 58, 34] ++ t ++ [34,
  44, 34, 100, 105, 114, 101, 99, 116, 111, 114, 34, 58, 34] ++ t ++ [34,
  44, 34, 97, 99, 116, 111, 114, 115, 34, 58, 34] ++ t ++ [34, 125]))

/-- What the library finds in such a text when the fields have three letters. -/
def titledJson : Json := fun s _ => some ((s.drop 10).take 3)

def postTitled (t : Bytes) : UrlRequest := .collection .post "/films" (titledText t)

/-- A number in three digits. -/
def numberTitle (n : Nat) : Bytes :=
  [UInt8.ofNat (48 + n / 100), UInt8.ofNat (48 + n / 10 % 10), UInt8.ofNat (48 + n % 10)]

theorem numberTitle_ne {m n : Nat} (hm : m < 1000) (hn : n < 1000) (h : m ≠ n) :
    numberTitle m ≠ numberTitle n := by
  intro heq
  simp only [numberTitle, List.cons.injEq, and_true] at heq
  have hdigit {a b : Nat} (ha : a < 10) (hb : b < 10)
      (hab : UInt8.ofNat (48 + a) = UInt8.ofNat (48 + b)) : a = b := by
    have hnat := congrArg UInt8.toNat hab
    rw [UInt8.toNat_ofNat_of_lt' (show 48 + a < 256 by omega),
      UInt8.toNat_ofNat_of_lt' (show 48 + b < 256 by omega)] at hnat
    omega
  have hhundreds := hdigit (by omega) (by omega) heq.1
  have htens := hdigit (by omega) (by omega) heq.2.1
  have hones := hdigit (by omega) (by omega) heq.2.2
  omega

theorem parseFilm_titled {t : Bytes} (ht : t.length = 3) :
    (parseFilm titledJson (titledText t)) = (0, some ⟨List.replicate 6 t⟩) := by
  have htitle (name : String) : titledJson (titledText t) name = some t :=
    congrArg some (List.take_left' ht)
  simp [parseFilm, fieldNames, htitle]

/-- A film with a new title is added to the end of the array. -/
theorem served_postTitled {db : Database} (h : DatabaseShape db) (hroom : db.curFilms < maxFilms) {t : Bytes}
    (ht : t.length = 3) (hnew : db.idMap.bindings sizeHash t = none) : ∃ next,
      Served titledJson db (postTitled t) next ∧ DatabaseShape next ∧
        next.curFilms = db.curFilms + 1 ∧ next.idMap.bindings sizeHash =
          Function.update (db.idMap.bindings sizeHash) t (some (bytesOfInt db.curFilms)) := by
  have hcontains : dbContains db t = false := by
    rw [dbContains, htGetValue_eq, hnew]
    rfl
  obtain ⟨next, hadd⟩ : ∃ next, dbAdd db t ⟨List.replicate 6 t⟩ = some next :=
    ⟨_, dbAdd_eq_some_iff.mpr ⟨hroom, rfl⟩⟩
  have hmap : next.curFilms = db.curFilms + 1 ∧ next.idMap.bindings sizeHash =
      Function.update (db.idMap.bindings sizeHash) t (some (bytesOfInt db.curFilms)) := by
    obtain ⟨-, rfl⟩ := dbAdd_eq_some_iff.mp hadd
    exact ⟨rfl, (htSetValue_spec h.wf t _).2.1⟩
  have hid : dbGetId next t = some (db.curFilms : Int) :=
    dbGetId_eq (h.lt le_rfl) (by rw [hmap.2]; exact Function.update_self _ _ _)
  refine ⟨next, ⟨.created (baseUrl ++ "/films" ++ "/" ++ toString (db.curFilms : Int)), ?_⟩, h.add hadd, hmap⟩
  have htitle : (⟨List.replicate 6 t⟩ : Film).title = t := rfl
  rw [postTitled, handleUrl, filmCollection, addFilm, parseFilm_titled ht]
  dsimp only
  rw [if_neg (by decide), htitle, hcontains, if_neg Bool.false_ne_true, hadd, Option.bind_some, hid]
  rfl

/-- The array can be filled. -/
theorem exists_run_curFilms : ∀ n ≤ maxFilms, ∃ requests db, Run (Served titledJson) dbCreate requests db ∧
    db.curFilms = n ∧ ∀ t bytes, db.idMap.bindings sizeHash t = some bytes → ∃ k < n, t = numberTitle k := by
  intro n
  induction n with
  | zero => exact fun _ => ⟨[], dbCreate, .nil dbCreate, rfl, by rintro t bytes ⟨⟩⟩
  | succ n ih =>
      intro hn
      obtain ⟨requests, db, hrun, hcur, htitles⟩ := ih (Nat.le_of_succ_le hn)
      have hfresh : db.idMap.bindings sizeHash (numberTitle n) = none := by
        cases hbound : db.idMap.bindings sizeHash (numberTitle n) with
        | none => rfl
        | some bytes =>
            obtain ⟨k, hk, heq⟩ := htitles _ bytes hbound
            unfold maxFilms at hn
            exact absurd heq (numberTitle_ne (by omega) (by omega) (Nat.ne_of_gt hk))
      obtain ⟨next, hserved, -, hnext, hmap⟩ :=
        served_postTitled (databaseShape_of_run hrun) (by omega) rfl hfresh
      refine ⟨_, next, hrun.append (.single hserved), by rw [hnext, hcur], fun t bytes hbytes => ?_⟩
      rw [hmap, Function.update_apply] at hbytes
      split at hbytes
      · rename_i heq
        exact ⟨n, Nat.lt_succ_self n, heq⟩
      · obtain ⟨k, hk, heq⟩ := htitles t bytes hbytes
        exact ⟨k, Nat.lt_succ_of_lt hk, heq⟩

/-- The array has 1000 slots and can be filled; one more film goes to index 1000. A second PUT that
changes a title goes to index -1. -/
theorem film_array_overrun :
    (∃ requests db, Run (Served titledJson) dbCreate requests db ∧
      filmIndices titledJson db (postTitled [97, 98, 99]) = [1000]) ∧
    (∃ requests db, Run (Served testJson) dbCreate requests db ∧
      filmIndices testJson db (putFilm (toString 0) 99) = [0, -1]) ∧
    ¬∀ json requests db, Run (Served json) dbCreate requests db → ∀ req, StaysInArray json db req := by
  have hput : filmIndices testJson dbB (putFilm (toString 0) 99) = [0, -1] := by decide +kernel
  refine ⟨?_, ⟨_, dbB, run_dbB, hput⟩, fun h => ?_⟩
  · obtain ⟨requests, db, hrun, hcur, htitles⟩ := exists_run_curFilms maxFilms le_rfl
    have hnew : dbContains db [97, 98, 99] = false := by
      rw [Bool.eq_false_iff, Ne, dbContains_iff]
      intro hbound
      obtain ⟨bytes, hbytes⟩ := hbound
      obtain ⟨k, hk, heq⟩ := htitles _ bytes hbytes
      have hfirst := congrArg (fun t => (t.getD 0 0).toNat) heq
      unfold maxFilms at hk
      simp [numberTitle] at hfirst
      omega
    refine ⟨requests, db, hrun, ?_⟩
    have htitle : (⟨List.replicate 6 [97, 98, 99]⟩ : Film).title = [97, 98, 99] := rfl
    rw [postTitled, filmIndices_post (parseFilm_titled rfl), htitle, hnew, hcur]
    rfl
  · have hbounds := (h testJson _ dbB run_dbB (putFilm (toString 0) 99)).bounds (-1)
    rw [hput] at hbounds
    exact absurd (hbounds (by decide)).1 (by decide)

end ComputerNetworking.Movies
