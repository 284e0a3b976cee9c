import ComputerNetworking.FilmClient
import ComputerNetworking.Strtok

/-! The films that the client reads from its file (`read_file` of `Movie Parser/client.c`).

A line of the file is cut into tokens at its semicolons. The first token is the title, the next ones are the
fields, and each is copied before the next one is cut off. A failed assertion, and a length that does not
fit into an `int`, end the program. -/

namespace ComputerNetworking.FilmClient

open Dht Strtok

/-! ### Reading -/

/-- `MAX_FILMS`. -/
def maxFilms : Nat := 1000

/-- The separator of the fields. -/
def semicolon : UInt8 := 59

/-- The conversion of a length to `int`. -/
def intOfLen (len : Nat) : Int := (len : Int).bmod 0x100000000

/-- The largest `int`. -/
def intMax : Int := 0x7fffffff

/-- A string in memory of its own: as many zeroed pointers as the string has characters, and one more. -/
def copyString (str : Bytes) : Option Bytes :=
  let len := intOfLen (strlen str)
  if 0 ≤ len ∧ len < intMax then
    some (str.take len.toNat ++ List.replicate (8 * (len.toNat + 1) - len.toNat) 0)
  else none

/-- A token that the assertion lets pass, copied. -/
def readField (t : Tokenizer UInt8) : Option (Bytes × Tokenizer UInt8) :=
  match strtok 0 [semicolon] t with
  | some (some i, t) => (copyString (t.mem.drop i)).map fun copy => (copy, t)
  | _ => none

/-- The loop over the fields. -/
def readFields : (n : Nat) → Tokenizer UInt8 → Option (Fin n → Bytes)
  | 0, _ => some fun i => i.elim0
  | n + 1, t => (readField t).bind fun (field, t) => (readFields n t).map (Fin.cons field)

/-- The body of the loop over the lines. -/
def readFilm (line : Bytes) : Option Film :=
  (readField ⟨line ++ [0], 0⟩).bind fun (title, t) => (readFields nFields t).map fun fields => ⟨title, fields⟩

/-- The loop over the lines, as `getline` returns them. -/
def readLines : List Bytes → List Film → Option (List Film)
  | [], films => some films
  | line :: lines, films =>
      if films.length < maxFilms then
        (readFilm line).bind fun film => readLines lines (films ++ [film])
      else some films

/-- `read_file`: the status, and the array `films` up to `n_films`. -/
def readFile (lines : List Bytes) : Option (Int × List Film) :=
  (readLines lines []).map fun films => (if films.isEmpty then 1 else 0, films)

/-- The film has these pieces as its title and its fields. -/
def Stores (film : Film) (pieces : List Bytes) : Prop :=
  List.Forall₂ IsString (film.title :: List.ofFn film.fields) pieces

/-- A piece that arrives as it is. -/
def Copyable (piece : Bytes) : Prop := piece ≠ [] ∧ 0 ∉ piece ∧ piece.length < 0x7fffffff

instance (piece : Bytes) : Decidable (Copyable piece) := inferInstanceAs (Decidable (_ ∧ _ ∧ _))

/-! ### One string -/

section Copy

variable {mem mem' str str' : Bytes}

theorem IsString.unique (h : IsString mem str) (h' : IsString mem str') : str = str' :=
  h.take.symm.trans h'.take

theorem isString_of_stringAt {i : Nat} (h : StringAt 0 mem i str) : IsString (mem.drop i) str := by
  obtain ⟨hnul, rest, hmem⟩ := h
  refine ⟨hnul, rest, ?_⟩
  rw [← hmem, List.append_assoc]
  rfl

theorem isString_padded (hnul : 0 ∉ str) (len : Nat) :
    IsString (str ++ List.replicate (8 * (len + 1) - len) 0) str := by
  have hsize : 8 * (len + 1) - len = 7 * (len + 1) + 1 := by omega
  exact ⟨hnul, List.replicate (7 * (len + 1)) 0, by rw [hsize, List.replicate_succ]⟩

theorem intOfLen_eq {len : Nat} (h : len < 0x80000000) : intOfLen len = len := by
  unfold intOfLen
  rw [Int.bmod_eq_of_le (by omega) (by omega)]

theorem copyString_eq (h : IsString mem str) (hlength : str.length < 0x7fffffff) :
    ∃ copy, copyString mem = some copy ∧ IsString copy str := by
  have hlen : intOfLen (strlen mem) = str.length := by rw [h.strlen, intOfLen_eq (by omega)]
  have htake : mem.take str.length = str := h.strlen ▸ h.take
  unfold copyString intMax
  rw [hlen, if_pos ⟨by omega, by omega⟩, Int.toNat_natCast, htake]
  exact ⟨_, rfl, isString_padded h.1 str.length⟩

/-- A string that is longer loses characters on its way, if it arrives. -/
theorem length_of_copyString (h : IsString mem str) {copy : Bytes} (hcopy : copyString mem = some copy)
    (hstr : IsString copy str) : str.length < 0x7fffffff := by
  unfold copyString intMax at hcopy
  dsimp only at hcopy
  split at hcopy
  · rename_i hlen
    obtain rfl := Option.some.inj hcopy
    by_contra hlong
    have hshort : (intOfLen (strlen mem)).toNat < str.length := by omega
    have htake : mem.take (intOfLen (strlen mem)).toNat = str.take (intOfLen (strlen mem)).toNat := by
      obtain ⟨-, rest, rfl⟩ := h
      rw [List.take_append_of_le_length hshort.le]
    have hnul : 0 ∉ mem.take (intOfLen (strlen mem)).toNat := fun hmem =>
      h.1 (List.mem_of_mem_take (htake ▸ hmem))
    have hsame := congrArg List.length (hstr.unique (isString_padded hnul _))
    rw [htake, List.length_take] at hsame
    omega
  · cases hcopy

end Copy

/-! ### One line -/

section Line

variable {t : Tokenizer UInt8} {n : Nat} {fields : Fin n → Bytes} {pieces : List Bytes}

/-- The memory is the copy of a string. -/
def Copied (copy str : Bytes) : Prop := ∃ mem, IsString mem str ∧ copyString mem = some copy

/-- The title is read as the fields are. -/
theorem readFilm_eq (line : Bytes) : readFilm line =
    (readFields (nFields + 1) ⟨line ++ [0], 0⟩).map fun fields => ⟨fields 0, fun i => fields i.succ⟩ := by
  rw [readFilm, readFields, Option.map_bind]
  congr 1
  funext ⟨title, t⟩
  rw [Function.comp_apply, Option.map_map]
  rfl

theorem readField_eq_some_iff {copy : Bytes} {t' : Tokenizer UInt8} : readField t = some (copy, t') ↔
    ∃ i, strtok 0 [semicolon] t = some (some i, t') ∧ copyString (t'.mem.drop i) = some copy := by
  unfold readField
  constructor
  · intro hfield
    split at hfield
    · rename_i i u hcall
      obtain ⟨copy, hcopy, heq⟩ := Option.map_eq_some_iff.mp hfield
      cases heq
      exact ⟨i, hcall, hcopy⟩
    · cases hfield
  · rintro ⟨i, hcall, hcopy⟩
    rw [hcall]
    exact Option.map_eq_some_iff.mpr ⟨copy, hcopy, rfl⟩

theorem readFields_eq (hpieces : ∀ p ∈ pieces, semicolon ∉ p) (hlength : pieces.length = n)
    (hcopyable : ∀ p ∈ pieces, Copyable p)
    (h : StringAt 0 t.mem t.save ([semicolon].intercalate pieces)) :
    ∃ fields, readFields n t = some fields ∧ List.Forall₂ IsString (List.ofFn fields) pieces := by
  induction n generalizing t pieces with
  | zero =>
      rw [List.length_eq_zero_iff] at hlength
      subst hlength
      exact ⟨_, rfl, .nil⟩
  | succ n ih =>
      cases pieces with
      | nil => cases hlength
      | cons p pieces =>
          rw [List.forall_mem_cons] at hpieces hcopyable
          have hne : p ≠ [] := hcopyable.1.1
          have hshort : p.length < 0x7fffffff := hcopyable.1.2.2
          obtain ⟨i, t', hcall, hstring, hrest⟩ := strtok_piece (by decide) (k := 0) hne hpieces.1 h
          obtain ⟨copy, hcopy, hcopied⟩ := copyString_eq (isString_of_stringAt hstring) hshort
          obtain ⟨fields, hfields, hall⟩ := ih hpieces.2 (Nat.succ.inj hlength) hcopyable.2 hrest
          refine ⟨Fin.cons copy fields, ?_, ?_⟩
          · have hfield : readField t = some (copy, t') :=
              readField_eq_some_iff.mpr ⟨i, hcall, hcopy⟩
            rw [readFields, hfield, Option.bind_some]
            exact Option.map_eq_some_iff.mpr ⟨fields, hfields, rfl⟩
          · rw [List.ofFn_cons]
            exact .cons hcopied hall

/-- What is stored are copies of the first pieces that are not empty. -/
theorem of_readFields (hpieces : ∀ p ∈ pieces, semicolon ∉ p)
    (h : StringAt 0 t.mem t.save ([semicolon].intercalate pieces)) (hread : readFields n t = some fields) :
    List.Forall₂ Copied (List.ofFn fields) ((pieces.filter (· ≠ [])).take n) ∧
      n ≤ (pieces.filter (· ≠ [])).length := by
  induction n generalizing t pieces with
  | zero => simp
  | succ n ih =>
      rw [readFields, Option.bind_eq_some_iff] at hread
      obtain ⟨⟨field, t'⟩, hfield, hrest⟩ := hread
      obtain ⟨i, hcall, hcopied⟩ := readField_eq_some_iff.mp hfield
      obtain ⟨rest, hreadrest, rfl⟩ := Option.map_eq_some_iff.mp hrest
      rcases empties_or pieces with ⟨k, rfl⟩ | ⟨k, p, later, rfl, hne⟩
      · -- only separators are left, and the call returns no token
        have hnone := strtok_empties (by decide) h
        rw [hcall] at hnone
        cases hnone
      · obtain ⟨j, u, hcall', hstring, hsaved⟩ := strtok_piece (by decide) hne (hpieces p (by simp)) h
        obtain ⟨rfl, rfl⟩ : i = j ∧ t' = u := by simpa [hcall] using hcall'
        obtain ⟨hall, hle⟩ := ih (fun q hq => hpieces q (by simp [hq])) hsaved hreadrest
        have hfilter : (List.replicate k [] ++ p :: later).filter (· ≠ []) =
            p :: later.filter (· ≠ []) := by simp [hne]
        rw [hfilter, List.take_succ_cons, List.ofFn_cons]
        exact ⟨.cons ⟨_, isString_of_stringAt hstring, hcopied⟩ hall, Nat.succ_le_succ hle⟩

theorem exists_left_of_forall₂ {R S : Bytes → Bytes → Prop} {copies strs : List Bytes}
    (h : List.Forall₂ R copies strs) (h' : List.Forall₂ S copies strs) :
    ∀ str ∈ strs, ∃ copy, R copy str ∧ S copy str := by
  induction h with
  | nil => simp
  | cons hhead _ ih =>
      obtain ⟨hhead', htail'⟩ := List.forall₂_cons.mp h'
      exact List.forall_mem_cons.mpr ⟨⟨_, hhead, hhead'⟩, ih htail'⟩

/-- A line of `1 + N_FIELDS` pieces is stored piece by piece exactly if none is lost on its way. -/
theorem readFilm_stores_iff (hcount : pieces.length = 1 + nFields) (hpieces : ∀ p ∈ pieces, semicolon ∉ p) :
    (∃ film, readFilm ([semicolon].intercalate pieces) = some film ∧ Stores film pieces) ↔
      ∀ p ∈ pieces, Copyable p := by
  have hline (hnul : ∀ p ∈ pieces, 0 ∉ p) :
      StringAt 0 ([semicolon].intercalate pieces ++ [0]) 0 ([semicolon].intercalate pieces) :=
    stringAt_zero (notMem_intercalate (by decide) hnul) []
  rw [readFilm_eq]
  constructor
  · rintro ⟨film, hread, hstores⟩
    obtain ⟨fields, hfields, rfl⟩ := Option.map_eq_some_iff.mp hread
    have hstrings : List.Forall₂ IsString (List.ofFn fields) pieces := by
      rw [List.ofFn_succ]
      exact hstores
    have hnul : ∀ p ∈ pieces, 0 ∉ p := fun p hp =>
      (exists_left_of_forall₂ hstrings hstrings p hp).elim fun _ h => h.1.1
    obtain ⟨hcopied, hle⟩ := of_readFields hpieces (hline hnul) hfields
    -- as many tokens as pieces leave no empty piece
    have hall : pieces.filter (· ≠ []) = pieces := by
      refine List.filter_sublist.eq_of_length_le ?_
      rw [hcount, Nat.add_comm]
      exact hle
    rw [hall, List.take_of_length_le (by rw [hcount, Nat.add_comm])] at hcopied
    intro p hp
    obtain ⟨copy, ⟨mem, hmem, hcopy⟩, hcopy'⟩ := exists_left_of_forall₂ hcopied hstrings p hp
    have hshort := length_of_copyString hmem hcopy hcopy'
    refine ⟨?_, hnul p hp, hshort⟩
    rw [← hall] at hp
    simpa using (List.mem_filter.mp hp).2
  · intro hcopyable
    obtain ⟨fields, hfields, hstrings⟩ := readFields_eq (t := ⟨[semicolon].intercalate pieces ++ [0], 0⟩)
      hpieces (hcount.trans (Nat.add_comm _ _)) hcopyable (hline fun p hp => (hcopyable p hp).2.1)
    refine ⟨_, Option.map_eq_some_iff.mpr ⟨fields, hfields, rfl⟩, ?_⟩
    rw [List.ofFn_succ] at hstrings
    exact hstrings

end Line

/-! ### The file -/

section File

variable {films : List Film}

theorem readLines_append (earlier later : List Bytes) (films : List Film) :
    readLines (earlier ++ later) films = (readLines earlier films).bind (readLines later) := by
  induction earlier generalizing films with
  | nil => rfl
  | cons line earlier ih =>
      rw [List.cons_append, readLines, readLines]
      split
      · rw [Option.bind_assoc]
        exact congrArg _ (funext fun film => ih _)
      · rename_i hfull
        cases later with
        | nil => rfl
        | cons line' later => rw [Option.bind_some, readLines, if_neg hfull]

/-- What a further line adds to the films. -/
theorem readFile_append {earlier : List Bytes} {status : Int}
    (hearlier : readFile earlier = some (status, films)) (hroom : films.length < maxFilms) (line : Bytes) :
    readFile (earlier ++ [line]) = (readFilm line).map fun film => (0, films ++ [film]) := by
  obtain ⟨films', hlines, heq⟩ := Option.map_eq_some_iff.mp hearlier
  cases heq
  rw [readFile, readLines_append, hlines, Option.bind_some, readLines, if_pos hroom, Option.map_bind]
  cases readFilm line with
  | none => rfl
  | some film => simp [readLines]

end File

/-- **A line of the file.** Whatever lines have been read before, as long as there is room, a line of
`1 + N_FIELDS` pieces adds a film with these pieces as its title and fields exactly if each of them is not
empty, has no zero in it, and has a length that fits into an `int` together with the final zero. -/
theorem csv_split_iff (earlier : List Bytes) (status : Int) (films : List Film)
    (hearlier : readFile earlier = some (status, films)) (hroom : films.length < maxFilms)
    (pieces : List Bytes) (hcount : pieces.length = 1 + nFields) (hpieces : ∀ p ∈ pieces, semicolon ∉ p) :
    (∃ film, readFile (earlier ++ [[semicolon].intercalate pieces]) = some (0, films ++ [film]) ∧
      Stores film pieces) ↔ ∀ p ∈ pieces, p ≠ [] ∧ 0 ∉ p ∧ p.length < 0x7fffffff := by
  rw [readFile_append hearlier hroom]
  refine Iff.trans ?_ (readFilm_stores_iff hcount hpieces)
  constructor
  · rintro ⟨film, hread, hstores⟩
    obtain ⟨film', hfilm, heq⟩ := Option.map_eq_some_iff.mp hread
    obtain rfl : film' = film := by simpa using heq
    exact ⟨film', hfilm, hstores⟩
  · rintro ⟨film, hfilm, hstores⟩
    exact ⟨film, by rw [hfilm, Option.map_some], hstores⟩

/-- The pieces of a line `a;b;c;d;e;f`, with the newline that `getline` leaves at the end. -/
def sixPieces : List Bytes := [[97], [98], [99], [100], [101], [102, 10]]

theorem csv_split_iff_six :
    ∃ film, readFile ([] ++ [[semicolon].intercalate sixPieces]) = some (0, [] ++ [film]) ∧
      Stores film sixPieces :=
  (csv_split_iff [] 1 [] rfl (by decide) sixPieces rfl (by decide)).mpr (by decide)

/-- The line `a;;c;d;e;f` has an empty second piece. The five tokens behind the title are not there: the last
assertion fails, and no film is read. -/
theorem empty_field_aborts :
    readFile [[semicolon].intercalate [[97], [], [99], [100], [101], [102, 10]]] = none ∧
      ¬∀ (earlier : List Bytes) (status : Int) (films : List Film),
        readFile earlier = some (status, films) → films.length < maxFilms →
        ∀ pieces : List Bytes, pieces.length = 1 + nFields → (∀ p ∈ pieces, semicolon ∉ p) →
        ∃ film, readFile (earlier ++ [[semicolon].intercalate pieces]) = some (0, films ++ [film]) ∧
          Stores film pieces := by
  have haborts : readFile [[semicolon].intercalate [[97], [], [99], [100], [101], [102, 10]]] = none := rfl
  refine ⟨haborts, fun hall => ?_⟩
  obtain ⟨film, hread, -⟩ := hall [] 1 [] rfl (by decide) [[97], [], [99], [100], [101], [102, 10]] rfl
    (by decide)
  rw [List.nil_append, haborts] at hread
  cases hread

/-! ### Whole files -/

theorem readLines_extends {lines : List Bytes} {films all : List Film} (h : readLines lines films = some all) :
    ∃ new, all = films ++ new := by
  induction lines generalizing films with
  | nil =>
      cases h
      exact ⟨[], (List.append_nil _).symm⟩
  | cons line lines ih =>
      rw [readLines] at h
      split at h
      · obtain ⟨film, -, hrest⟩ := Option.bind_eq_some_iff.mp h
        obtain ⟨new, rfl⟩ := ih hrest
        exact ⟨film :: new, List.append_assoc _ _ _⟩
      · cases h
        exact ⟨[], (List.append_nil _).symm⟩

theorem readLines_records_iff {records : List (List Bytes)}
    (hrecords : ∀ r ∈ records, r.length = 1 + nFields ∧ ∀ p ∈ r, semicolon ∉ p) (films : List Film) :
    (∃ new, readLines (records.map [semicolon].intercalate) films = some (films ++ new) ∧
      List.Forall₂ Stores new (records.take (maxFilms - films.length))) ↔
    ∀ r ∈ records.take (maxFilms - films.length), ∀ p ∈ r, Copyable p := by
  induction records generalizing films with
  | nil => simp [readLines]
  | cons r records ih =>
      rw [List.forall_mem_cons] at hrecords
      have hone := readFilm_stores_iff hrecords.1.1 hrecords.1.2
      rw [List.map_cons, readLines]
      split
      · rename_i hroom
        obtain ⟨room, hm⟩ : ∃ room, maxFilms - films.length = room + 1 :=
          ⟨maxFilms - films.length - 1, by omega⟩
        have hrest (film : Film) := ih hrecords.2 (films ++ [film])
        have hleft (film : Film) : maxFilms - (films ++ [film]).length = room := by
          rw [List.length_append, List.length_singleton]
          omega
        simp only [hleft] at hrest
        rw [hm, List.take_succ_cons, List.forall_mem_cons, ← hone]
        constructor
        · rintro ⟨new, hread, hstores⟩
          obtain ⟨film, hfilm, hlater⟩ := Option.bind_eq_some_iff.mp hread
          obtain ⟨new', hnew⟩ := readLines_extends hlater
          rw [hnew] at hlater
          obtain rfl : new = film :: new' := by simpa using hnew
          obtain ⟨hfirst, hothers⟩ := List.forall₂_cons.mp hstores
          exact ⟨⟨film, hfilm, hfirst⟩, (hrest film).mp ⟨new', hlater, hothers⟩⟩
        · rintro ⟨⟨film, hfilm, hfirst⟩, hothers⟩
          obtain ⟨new, hread, hothers⟩ := (hrest film).mpr hothers
          refine ⟨film :: new, ?_, .cons hfirst hothers⟩
          rw [hfilm, Option.bind_some, hread, List.append_assoc]
          rfl
      · rename_i hfull
        have hnone : maxFilms - films.length = 0 := by omega
        rw [hnone]
        simp

/-- A file of lines of `1 + N_FIELDS` pieces is read line by line, as far as there is room for films, exactly
if no piece of these lines is lost on its way. -/
theorem csv_file_split_iff {records : List (List Bytes)} (hne : records ≠ [])
    (hrecords : ∀ r ∈ records, r.length = 1 + nFields ∧ ∀ p ∈ r, semicolon ∉ p) :
    (∃ films, readFile (records.map [semicolon].intercalate) = some (0, films) ∧
      List.Forall₂ Stores films (records.take maxFilms)) ↔
    ∀ r ∈ records.take maxFilms, ∀ p ∈ r, Copyable p := by
  refine Iff.trans ?_ (readLines_records_iff hrecords [])
  obtain ⟨r, rest, rfl⟩ := List.exists_cons_of_ne_nil hne
  constructor
  · rintro ⟨films, hread, hstores⟩
    obtain ⟨films', hlines, heq⟩ := Option.map_eq_some_iff.mp hread
    obtain rfl := (Prod.mk.inj heq).2
    exact ⟨_, hlines, hstores⟩
  · rintro ⟨films, hlines, hstores⟩
    refine ⟨films, ?_, hstores⟩
    rw [readFile, hlines]
    cases hstores
    rfl

end ComputerNetworking.FilmClient
