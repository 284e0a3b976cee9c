import Mathlib.Data.List.Infix
import Mathlib.Data.List.TakeWhile

/-! Cutting strings into tokens in place.

A string lies in memory up to a terminator. A call skips separators from the saved place on, ends the token
behind them by writing a terminator over the next separator, and saves the place behind it. Memory is a
list, and looking behind its end has no result.

A string with one separator is a list of pieces. A call returns the next piece that is not empty. -/

namespace ComputerNetworking.Strtok

variable {α : Type*}

/-- Memory, and the place in it that is saved between the calls. -/
structure Tokenizer (α : Type*) where
  mem : List α
  save : ℕ
  deriving DecidableEq, Repr

/-- The first cell with a property, from a place on. -/
def seek (p : α → Bool) (mem : List α) (i : ℕ) : Option ℕ := ((mem.drop i).findIdx? p).map (i + ·)

section Calls

variable [DecidableEq α] (nul : α) (delims : List α)

/-- `strtok(NULL, delims)`: the token, if there is one. A call with a string saves its place first. -/
def strtok (t : Tokenizer α) : Option (Option ℕ × Tokenizer α) :=
  (seek (fun c => decide (c ∉ delims)) t.mem t.save).bind fun start =>
    if t.mem[start]? = some nul then some (none, { t with save := start })
    else (seek (fun c => decide (c = nul ∨ c ∈ delims)) t.mem start).map fun stop =>
      if t.mem[stop]? = some nul then (some start, { t with save := stop })
      else (some start, ⟨t.mem.set stop nul, stop + 1⟩)

/-- What a pointer is printed as. -/
def stringFrom (mem : List α) (i : ℕ) : List α := (mem.drop i).takeWhile (· ≠ nul)

/-- The tokens that a loop reads until there is no more, with the number of rounds left. -/
def strtokLoop : ℕ → Tokenizer α → Option (List (List α))
  | 0, _ => none
  | rounds + 1, t =>
      match strtok nul delims t with
      | none => none
      | some (none, _) => some []
      | some (some token, t) => (strtokLoop rounds t).map (stringFrom nul t.mem token :: ·)

/-- A string with its terminator lies in memory at a place. -/
structure StringAt (mem : List α) (i : ℕ) (str : List α) : Prop where
  nul_notMem : nul ∉ str
  lies : str ++ [nul] <+: mem.drop i

end Calls

section Seek

variable {p : α → Bool} {mem : List α} {i j : ℕ}

theorem seek_eq {skip rest : List α} {c : α} (hmem : mem.drop i = skip ++ c :: rest)
    (hskip : ∀ a ∈ skip, p a = false) (hc : p c = true) : seek p mem i = some (i + skip.length) := by
  have hnone : skip.findIdx? p = none := List.findIdx?_eq_none_iff.mpr hskip
  rw [seek, hmem, List.findIdx?_append, hnone, List.findIdx?_cons, if_pos hc, Option.none_or,
    Option.map_some, Option.map_some, Nat.zero_add]

/-- What stands between the place of the search and the cell that it finds. -/
theorem of_seek (h : seek p mem i = some j) : ∃ skip c rest, mem.drop i = skip ++ c :: rest ∧
    j = i + skip.length ∧ (∀ a ∈ skip, p a = false) ∧ p c = true := by
  obtain ⟨k, hk, rfl⟩ := Option.map_eq_some_iff.mp h
  obtain ⟨hlt, hp, hbefore⟩ := List.findIdx?_eq_some_iff_getElem.mp hk
  refine ⟨(mem.drop i).take k, (mem.drop i)[k], (mem.drop i).drop (k + 1), ?_, ?_, ?_, hp⟩
  · rw [← List.drop_eq_getElem_cons hlt, List.take_append_drop]
  · rw [List.length_take_of_le hlt.le]
  · intro a ha
    obtain ⟨n, hn, rfl⟩ := List.getElem_of_mem ha
    rw [List.length_take] at hn
    rw [List.getElem_take]
    simpa using hbefore n (by omega)

end Seek

section Memory

variable {mem skip rest : List α} {i : ℕ} {c : α}

theorem drop_skip (h : mem.drop i = skip ++ rest) : mem.drop (i + skip.length) = rest := by
  rw [← List.drop_drop, h, List.drop_left]

/-- A string with a terminator behind it. -/
theorem stringAt_zero {nul : α} {str : List α} (h : nul ∉ str) (rest : List α) :
    StringAt nul (str ++ nul :: rest) 0 str :=
  ⟨h, rest, by rw [List.drop_zero, List.append_assoc]; rfl⟩

theorem getElem?_of_drop (h : mem.drop i = c :: rest) : mem[i]? = some c := by
  have hfirst : (mem.drop i)[0]? = some c := by rw [h, List.getElem?_cons_zero]
  rwa [List.getElem?_drop, Nat.add_zero] at hfirst

/-- The cell behind a token is overwritten. -/
theorem drop_set_skip (h : mem.drop i = skip ++ c :: rest) (d : α) :
    (mem.set (i + skip.length) d).drop i = skip ++ d :: rest := by
  rw [← List.set_drop, h, List.set_append_right _ _ le_rfl, Nat.sub_self, List.set_cons_zero]

end Memory

section Tokens

variable [DecidableEq α] {nul : α} {delims : List α} {t t' : Tokenizer α}

theorem StringAt.stringFrom {mem : List α} {i : ℕ} {str : List α} (h : StringAt nul mem i str) :
    stringFrom nul mem i = str := by
  obtain ⟨hnul, rest, hmem⟩ := h
  have hne : ∀ c ∈ str, decide (c ≠ nul) = true := by
    intro c hc
    rw [decide_eq_true_eq]
    rintro rfl
    exact hnul hc
  rw [Strtok.stringFrom, ← hmem, List.append_assoc, List.takeWhile_append_of_pos hne]
  simp

/-- A call that finds a token: what it returns, writes and saves. -/
theorem strtok_eq {skip token rest : List α} {c : α} (hnul : nul ∉ delims)
    (hmem : t.mem.drop t.save = skip ++ (token ++ c :: rest)) (hskip : ∀ a ∈ skip, a ∈ delims)
    (hne : token ≠ []) (htoken : ∀ a ∈ token, a ≠ nul ∧ a ∉ delims) (hc : c = nul ∨ c ∈ delims) :
    strtok nul delims t = some (some (t.save + skip.length),
      ⟨t.mem.set (t.save + skip.length + token.length) nul,
        t.save + skip.length + token.length + if c = nul then 0 else 1⟩) := by
  obtain ⟨a, token', rfl⟩ := List.exists_cons_of_ne_nil hne
  have ha := htoken a List.mem_cons_self
  have hstart : seek (fun c => decide (c ∉ delims)) t.mem t.save = some (t.save + skip.length) :=
    seek_eq hmem (fun b hb => decide_eq_false (not_not_intro (hskip b hb))) (decide_eq_true ha.2)
  have hrest := drop_skip hmem
  have hstop : seek (fun c => decide (c = nul ∨ c ∈ delims)) t.mem (t.save + skip.length) =
      some (t.save + skip.length + (a :: token').length) :=
    seek_eq hrest (fun b hb => decide_eq_false (not_or.mpr (htoken b hb))) (decide_eq_true hc)
  have hfirst : t.mem[t.save + skip.length]? = some a := getElem?_of_drop hrest
  have hlast : t.mem[t.save + skip.length + (a :: token').length]? = some c :=
    getElem?_of_drop (drop_skip hrest)
  rw [strtok, hstart, Option.bind_some, hfirst, if_neg fun heq => ha.1 (Option.some.inj heq), hstop,
    Option.map_some, hlast]
  by_cases heq : c = nul
  · subst heq
    obtain ⟨hlt, hcell⟩ := List.getElem?_eq_some_iff.mp hlast
    have hsame : t.mem.set (t.save + skip.length + (a :: token').length) c = t.mem := by
      conv_lhs => rw [← hcell, List.set_getElem_self hlt]
    rw [if_pos rfl, if_pos rfl, hsame]
    rfl
  · rw [if_neg fun h => heq (Option.some.inj h), if_neg heq]

/-- A call that finds only separators before the end of the string. -/
theorem strtok_eq_none {skip rest : List α} (hnul : nul ∉ delims)
    (hmem : t.mem.drop t.save = skip ++ nul :: rest) (hskip : ∀ a ∈ skip, a ∈ delims) :
    strtok nul delims t = some (none, { t with save := t.save + skip.length }) := by
  have hstart : seek (fun c => decide (c ∉ delims)) t.mem t.save = some (t.save + skip.length) :=
    seek_eq hmem (fun b hb => decide_eq_false (not_not_intro (hskip b hb))) (decide_eq_true hnul)
  rw [strtok, hstart, Option.bind_some, getElem?_of_drop (drop_skip hmem), if_pos rfl]

/-- What a call with a result has met. -/
theorem of_strtok {start : ℕ} (h : strtok nul delims t = some (some start, t')) :
    ∃ skip token c rest, t.mem.drop t.save = skip ++ (token ++ c :: rest) ∧
      start = t.save + skip.length ∧ token ≠ [] ∧ (∀ a ∈ token, a ≠ nul ∧ a ∉ delims) ∧
      (c = nul ∨ c ∈ delims) ∧ ∀ a ∈ skip, a ∈ delims := by
  obtain ⟨first, hstart, hrun⟩ := Option.bind_eq_some_iff.mp h
  obtain ⟨skip, a, tail, hmem, rfl, hskip, ha⟩ := of_seek hstart
  have hrest := drop_skip hmem
  rw [getElem?_of_drop hrest] at hrun
  split at hrun
  · cases hrun
  · rename_i hne
    obtain ⟨stop, hstop, hresult⟩ := Option.map_eq_some_iff.mp hrun
    obtain ⟨token, c, rest, htail, -, htoken, hc⟩ := of_seek hstop
    have hstart : start = t.save + skip.length := by
      split at hresult <;> cases hresult <;> rfl
    refine ⟨skip, token, c, rest, by rw [hmem, ← hrest, htail], hstart, ?_, fun b hb => ?_,
      of_decide_eq_true hc, fun b hb => not_not.mp (of_decide_eq_false (hskip b hb))⟩
    · -- the first cell is no separator, so that the token begins with it
      rintro rfl
      rw [List.nil_append, hrest] at htail
      obtain ⟨rfl, -⟩ := List.cons.inj htail
      rcases of_decide_eq_true hc with rfl | hsep
      · exact hne rfl
      · exact of_decide_eq_true ha hsep
    · exact not_or.mp (of_decide_eq_false (htoken b hb))

/-- A token is a string that is not empty and has no separator in it. -/
theorem stringAt_of_strtok {start : ℕ} (hnul : nul ∉ delims)
    (h : strtok nul delims t = some (some start, t')) : ∃ token, token ≠ [] ∧
      (∀ a ∈ token, a ∉ delims) ∧ StringAt nul t'.mem start token := by
  obtain ⟨skip, token, c, rest, hmem, rfl, hne, htoken, hc, hskip⟩ := of_strtok h
  rw [strtok_eq hnul hmem hskip hne htoken hc] at h
  cases h
  refine ⟨token, hne, fun a ha => (htoken a ha).2, fun hmem => (htoken nul hmem).1 rfl, rest, ?_⟩
  rw [drop_set_skip (drop_skip hmem), List.append_assoc]
  rfl

/-- A call writes one cell at most: a terminator over a separator. -/
theorem strtok_mem {token : Option ℕ} (h : strtok nul delims t = some (token, t')) : t'.mem = t.mem ∨
    ∃ stop c, t.mem[stop]? = some c ∧ c ∈ delims ∧ t'.mem = t.mem.set stop nul := by
  obtain ⟨start, -, hrun⟩ := Option.bind_eq_some_iff.mp h
  split at hrun
  · cases hrun
    exact .inl rfl
  · obtain ⟨stop, hstop, hresult⟩ := Option.map_eq_some_iff.mp hrun
    obtain ⟨skip, c, rest, hmem, rfl, -, hc⟩ := of_seek hstop
    have hcell : t.mem[start + skip.length]? = some c := getElem?_of_drop (drop_skip hmem)
    split at hresult
    · cases hresult
      exact .inl rfl
    · rename_i hnext
      cases hresult
      have hne : c ≠ nul := fun heq => hnext (heq ▸ hcell)
      exact .inr ⟨_, c, hcell, (of_decide_eq_true hc).resolve_left hne, rfl⟩

/-- The memory keeps its length. -/
theorem strtok_length {token : Option ℕ} (h : strtok nul delims t = some (token, t')) :
    t'.mem.length = t.mem.length := by
  rcases strtok_mem h with hmem | ⟨stop, c, -, -, hmem⟩
  · rw [hmem]
  · rw [hmem, List.length_set]

/-- A call changes cells with separators only. -/
theorem strtok_frame {token : Option ℕ} (h : strtok nul delims t = some (token, t')) {j : ℕ} {c : α}
    (hj : t.mem[j]? = some c) (hc : c ∉ delims) : t'.mem[j]? = some c := by
  rcases strtok_mem h with hmem | ⟨stop, d, hstop, hd, hmem⟩
  · rw [hmem, hj]
  · have hne : stop ≠ j := by
      intro heq
      rw [heq, hj, Option.some_inj] at hstop
      exact hc (hstop ▸ hd)
    rw [hmem, List.getElem?_set_ne hne, hj]

/-- A call writes terminators only. -/
theorem of_strtok_cell {token : Option ℕ} (h : strtok nul delims t = some (token, t')) {j : ℕ} {c : α}
    (hj : t'.mem[j]? = some c) (hc : c ≠ nul) : t.mem[j]? = some c := by
  rcases strtok_mem h with hmem | ⟨stop, d, hstop, -, hmem⟩
  · rwa [hmem] at hj
  · have hne : stop ≠ j := by
      intro heq
      have hlt := (List.getElem?_eq_some_iff.mp hstop).1
      rw [hmem, ← heq, List.getElem?_set_self hlt] at hj
      exact hc (Option.some.inj hj).symm
    rwa [hmem, List.getElem?_set_ne hne] at hj

/-- A string without separators stays in memory. -/
theorem StringAt.keep {token : Option ℕ} {i : ℕ} {str : List α} (hstr : StringAt nul t.mem i str)
    (hnul : nul ∉ delims) (hclear : ∀ c ∈ str, c ∉ delims) (h : strtok nul delims t = some (token, t')) :
    StringAt nul t'.mem i str := by
  obtain ⟨hnotMem, hlies⟩ := hstr
  rw [List.prefix_iff_getElem?] at hlies
  refine ⟨hnotMem, List.prefix_iff_getElem?.mpr fun j hj => ?_⟩
  have hcell := hlies j hj
  rw [List.getElem?_drop] at hcell ⊢
  refine strtok_frame h hcell ?_
  rcases List.mem_append.mp (List.getElem_mem hj) with hmem | hlast
  · exact hclear _ hmem
  · rwa [List.mem_singleton.mp hlast]

/-- Without separators a call returns the rest of the string. -/
theorem strtok_rest {str : List α} (hne : str ≠ []) (h : StringAt nul t.mem t.save str) :
    ∃ t', strtok nul [] t = some (some t.save, t') ∧ t'.mem = t.mem := by
  obtain ⟨hnul, rest, hmem⟩ := h
  have hdrop : t.mem.drop t.save = [] ++ (str ++ nul :: rest) := by
    rw [← hmem, List.append_assoc]
    rfl
  have htoken : ∀ a ∈ str, a ≠ nul ∧ a ∉ ([] : List α) := by
    intro a ha
    refine ⟨?_, List.not_mem_nil⟩
    rintro rfl
    exact hnul ha
  have hcall := strtok_eq List.not_mem_nil hdrop (fun a ha => ha) hne htoken (.inl rfl)
  refine ⟨_, hcall, ?_⟩
  -- there is no separator to write over
  rcases strtok_mem hcall with hsame | ⟨stop, c, -, hc, -⟩
  · exact hsame
  · exact absurd hc List.not_mem_nil

end Tokens

/-! ### Pieces -/

section Pieces

variable {sep : α}

theorem intercalate_empties (k : ℕ) (p : List α) (rest : List (List α)) :
    [sep].intercalate (List.replicate k [] ++ p :: rest) =
      List.replicate k sep ++ [sep].intercalate (p :: rest) := by
  induction k with
  | zero => rfl
  | succ k ih =>
      rw [List.replicate_succ, List.cons_append, List.intercalate_cons_of_ne_nil (by simp), ih]
      rfl

theorem intercalate_all_empty (k : ℕ) :
    [sep].intercalate (List.replicate k ([] : List α)) = List.replicate (k - 1) sep := by
  cases k with
  | zero => rfl
  | succ k =>
      rw [List.replicate_succ', intercalate_empties]
      simp

theorem notMem_intercalate {a : α} (ha : a ≠ sep) {pieces : List (List α)} (h : ∀ p ∈ pieces, a ∉ p) :
    a ∉ [sep].intercalate pieces := by
  induction pieces with
  | nil => exact List.not_mem_nil
  | cons p pieces ih =>
      rw [List.forall_mem_cons] at h
      cases pieces with
      | nil =>
          rw [List.intercalate_singleton]
          exact h.1
      | cons q pieces =>
          rw [List.intercalate_cons_cons, List.mem_append, List.mem_append, List.mem_singleton]
          rintro ((hp | rfl) | hrest)
          · exact h.1 hp
          · exact ha rfl
          · exact ih h.2 hrest

theorem mem_intercalate {pieces : List (List α)} {p : List α} {c : α} (hp : p ∈ pieces) (hc : c ∈ p) :
    c ∈ [sep].intercalate pieces := by
  induction pieces with
  | nil => cases hp
  | cons q pieces ih =>
      cases pieces with
      | nil =>
          rw [List.intercalate_singleton, ← List.mem_singleton.mp hp]
          exact hc
      | cons q' pieces =>
          rw [List.intercalate_cons_cons, List.mem_append, List.mem_append]
          rcases List.mem_cons.mp hp with rfl | hp
          · exact .inl (.inl hc)
          · exact .inr (ih hp)

theorem forall_mem_replicate_sep (k : ℕ) (sep : α) : ∀ a ∈ List.replicate k sep, a ∈ [sep] := by
  intro a ha
  rw [List.eq_of_mem_replicate ha]
  exact List.mem_singleton_self sep

/-- The first piece that is not empty, if there is one. -/
theorem empties_or (pieces : List (List α)) : (∃ k, pieces = List.replicate k []) ∨
    ∃ k p rest, pieces = List.replicate k [] ++ p :: rest ∧ p ≠ [] := by
  induction pieces with
  | nil => exact .inl ⟨0, rfl⟩
  | cons p pieces ih =>
      by_cases hp : p = []
      · subst hp
        rcases ih with ⟨k, rfl⟩ | ⟨k, p, rest, rfl, hp⟩
        · exact .inl ⟨k + 1, rfl⟩
        · exact .inr ⟨k + 1, p, rest, rfl, hp⟩
      · exact .inr ⟨0, p, pieces, rfl, hp⟩

variable [DecidableEq α] {nul : α} {t : Tokenizer α}

/-- A call returns the next piece that is not empty and leaves the pieces behind it. -/
theorem strtok_piece (hsep : sep ≠ nul) {k : ℕ} {p : List α} {rest : List (List α)} (hne : p ≠ [])
    (hp : sep ∉ p)
    (h : StringAt nul t.mem t.save ([sep].intercalate (List.replicate k [] ++ p :: rest))) :
    ∃ i t', strtok nul [sep] t = some (some i, t') ∧ StringAt nul t'.mem i p ∧
      StringAt nul t'.mem t'.save ([sep].intercalate rest) := by
  have hnul : nul ∉ [sep] := by simpa using hsep.symm
  have hskip := forall_mem_replicate_sep k sep
  obtain ⟨hmem, tail, htail⟩ := h
  rw [intercalate_empties, List.append_assoc] at htail
  rw [intercalate_empties, List.mem_append, not_or] at hmem
  have htoken (hpnul : nul ∉ p) : ∀ a ∈ p, a ≠ nul ∧ a ∉ [sep] := by
    intro a ha
    refine ⟨?_, ?_⟩
    · rintro rfl
      exact hpnul ha
    · rw [List.mem_singleton]
      rintro rfl
      exact hp ha
  cases rest with
  | nil =>
      rw [List.intercalate_singleton] at hmem htail
      have hdrop : t.mem.drop t.save = List.replicate k sep ++ (p ++ nul :: tail) := by
        rw [← htail]
        simp
      have hset := drop_set_skip (drop_skip hdrop) nul
      refine ⟨_, _, strtok_eq hnul hdrop hskip hne (htoken hmem.2) (.inl rfl), ⟨hmem.2, tail, ?_⟩,
        List.not_mem_nil, tail, ?_⟩
      · rw [hset]
        simp
      · rw [if_pos rfl]
        exact (drop_skip hset).symm
  | cons q rest =>
      rw [List.intercalate_cons_cons] at hmem htail
      rw [List.append_assoc, List.mem_append, List.mem_append, not_or, not_or] at hmem
      have hdrop : t.mem.drop t.save =
          List.replicate k sep ++ (p ++ sep :: ([sep].intercalate (q :: rest) ++ nul :: tail)) := by
        rw [← htail]
        simp
      have hset := drop_set_skip (drop_skip hdrop) nul
      refine ⟨_, _, strtok_eq hnul hdrop hskip hne (htoken hmem.2.1) (.inr (List.mem_singleton_self sep)),
        ⟨hmem.2.1, [sep].intercalate (q :: rest) ++ nul :: tail, ?_⟩, hmem.2.2.2, tail, ?_⟩
      · rw [hset, List.append_assoc]
        rfl
      · -- what is saved is the place behind the separator
        rw [List.append_cons] at hset
        have hsaved := drop_skip hset
        rw [List.length_append, List.length_singleton, ← Nat.add_assoc] at hsaved
        rw [if_neg hsep, hsaved, List.append_assoc]
        rfl

/-- A call returns nothing if all pieces are empty. -/
theorem strtok_empties (hsep : sep ≠ nul) {k : ℕ}
    (h : StringAt nul t.mem t.save ([sep].intercalate (List.replicate k []))) :
    strtok nul [sep] t = some (none, { t with save := t.save + (k - 1) }) := by
  obtain ⟨-, tail, htail⟩ := h
  rw [intercalate_all_empty, List.append_assoc] at htail
  rw [strtok_eq_none (by simpa using hsep.symm) htail.symm (forall_mem_replicate_sep _ sep),
    List.length_replicate]

/-- The pieces that are not empty are read, in order. -/
theorem strtokLoop_eq (hsep : sep ≠ nul) {pieces : List (List α)} (hpieces : ∀ p ∈ pieces, sep ∉ p)
    (h : StringAt nul t.mem t.save ([sep].intercalate pieces)) {rounds : ℕ}
    (hrounds : pieces.length < rounds) :
    strtokLoop nul [sep] rounds t = some (pieces.filter (· ≠ [])) := by
  induction rounds generalizing t pieces with
  | zero => omega
  | succ rounds ih =>
      rcases empties_or pieces with ⟨k, rfl⟩ | ⟨k, p, rest, rfl, hne⟩
      · rw [strtokLoop, strtok_empties hsep h]
        simp
      · have hrest : ∀ q ∈ rest, sep ∉ q := fun q hq => hpieces q (by simp [hq])
        obtain ⟨i, t', hcall, hstring, hsaved⟩ := strtok_piece hsep hne (hpieces p (by simp)) h
        rw [List.length_append, List.length_cons] at hrounds
        rw [strtokLoop, hcall]
        simp only [ih hrest hsaved (by omega), hstring.stringFrom]
        simp [hne]

theorem notMem_of_mem_splitOn {p str : List α} (hp : p ∈ str.splitOn sep) : sep ∉ p := by
  induction str generalizing p with
  | nil =>
      obtain rfl : p = [] := by simpa using hp
      exact List.not_mem_nil
  | cons c str ih =>
      rw [List.splitOn_cons_eq_if_modifyHead] at hp
      split at hp
      · rcases List.mem_cons.mp hp with rfl | hp
        · exact List.not_mem_nil
        · exact ih hp
      · rename_i hc
        obtain ⟨q, rest, hsplit⟩ := List.exists_cons_of_ne_nil (List.splitOn_ne_nil sep str)
        rw [hsplit, List.modifyHead_cons, List.mem_cons] at hp
        rw [hsplit] at ih
        rcases hp with rfl | hp
        · rw [List.mem_cons, not_or]
          exact ⟨fun heq => hc (beq_iff_eq.mpr heq.symm), ih List.mem_cons_self⟩
        · exact ih (List.mem_cons_of_mem _ hp)

theorem mem_of_mem_splitOn {p str : List α} {c : α} (hp : p ∈ str.splitOn sep) (hc : c ∈ p) : c ∈ str := by
  have hjoined : [sep].intercalate (str.splitOn sep) = str := List.intercalate_splitOn sep
  exact hjoined ▸ mem_intercalate hp hc

end Pieces

end ComputerNetworking.Strtok
