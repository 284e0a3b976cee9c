import Mathlib.Algebra.Order.Group.Abs
import ComputerNetworking.Selection
import ComputerNetworking.ServerModel

/-! The NTP client (`NTP Time Server/client.c`).

A time is an unsigned number of 32 bits before and 32 bits behind the point. It is held in an `int64_t`,
and differences and sums wrap. The client asks several servers and keeps the result of one of them. -/

namespace ComputerNetworking.Ntp

open Dht Selection

/-! ### Times -/

/-- `time_offset`. -/
def timeOffset (t1 t2 t3 t4 : Int64) : Int64 := ((t2 - t1) + (t3 - t4)) / 2

/-- `time_delay`. -/
def timeDelay (t1 t2 t3 t4 : Int64) : Int64 := (t4 - t1) + (t3 - t2)

/-- `NTP_OFFSET`. -/
def ntpOffset : UInt64 := 2208988800

/-- `to_ntp`. -/
def toNtp (unixTimestamp : Int64) : Int64 := ((unixTimestamp.toUInt64 + ntpOffset) <<< 32).toInt64

/-! ### Responses -/

/-- `ntp_result`. -/
structure NtpResult where
  serverName : String
  stratum : Int
  rootDispersion : Int32
  offset : Int64
  deriving DecidableEq

/-- What `recv_ntp_response` reads from a packet. -/
structure NtpResponse where
  stratum : Int
  dispersion : Int32
  serverReceive : Int64
  serverTransmit : Int64
  deriving DecidableEq

/-- `PACK_LEN`, in bytes. -/
def packLen : Nat := 48

/-- `be64toh` of the eight bytes at an offset. -/
def uint64At (msg : Bytes) (offset : Nat) : UInt64 :=
  UInt64.ofNat ((uint32At msg offset).toNat * 2 ^ 32 + (uint32At msg (offset + 4)).toNat)

/-- `recv_ntp_response` on a datagram; `none` if an assertion fails. -/
def recvNtpResponse (datagram : Bytes) : Option NtpResponse :=
  let msgBuffer := datagram.take packLen
  if msgBuffer.length ≠ packLen then none
  else
    let response : NtpResponse := {
      stratum := (((uint32At msgBuffer 0).toInt32 >>> 16) &&& 0xFF).toInt
      dispersion := (uint32At msgBuffer 8).toInt32
      serverReceive := (uint64At msgBuffer 32).toInt64
      serverTransmit := (uint64At msgBuffer 40).toInt64 }
    if response.serverTransmit ≥ response.serverReceive then some response else none

/-- `get_time` when the server responds; the clock is read when the request is sent and when the response
has come. -/
def getTime (serverName : String) (sent received : Int64) (datagram : Bytes) : Option NtpResult :=
  (recvNtpResponse datagram).map fun response => {
    serverName := serverName
    stratum := response.stratum
    rootDispersion := response.dispersion
    offset := timeOffset (toNtp sent) response.serverReceive response.serverTransmit (toNtp received) }

/-! ### Selection -/

/-- `MAX_STRATUM`. -/
def maxStratum : Int := 0xFF

/-- The condition under which `main` replaces `best_result`. -/
def Replaces (res best : NtpResult) : Prop :=
  res.stratum < best.stratum ∨ res.rootDispersion < best.rootDispersion

instance : DecidableRel Replaces := fun _ _ => inferInstanceAs (Decidable (_ ∨ _))

/-- `best_result` before the loop: apart from the stratum it is not initialised. -/
def impossibleResult (uninit : NtpResult) : NtpResult := { uninit with stratum := maxStratum + 1 }

/-- `best_result` after the loop of `main`; a server that does not respond gives `none`. -/
def bestResult (uninit : NtpResult) (answers : List (Option NtpResult)) : NtpResult :=
  answers.foldl (fun best answer =>
    match answer with
    | none => best
    | some res => if Replaces res best then res else best) (impossibleResult uninit)

/-- The result that `main` prints, if a server has responded. -/
def synchSource (uninit : NtpResult) (answers : List (Option NtpResult)) : Option NtpResult :=
  let best := bestResult uninit answers
  if best.stratum > maxStratum then none else some best

/-- The order of the results: by stratum, then by root dispersion as an unsigned number. -/
def NotAfter (a b : NtpResult) : Prop :=
  a.stratum < b.stratum ∨
    a.stratum = b.stratum ∧ a.rootDispersion.toUInt32 ≤ b.rootDispersion.toUInt32

def IsMinimum (m : NtpResult) (results : List NtpResult) : Prop :=
  m ∈ results ∧ ∀ r ∈ results, NotAfter m r

/-- The same stratum and the same dispersion. -/
def Alike (a b : NtpResult) : Prop := a.stratum = b.stratum ∧ a.rootDispersion = b.rootDispersion

theorem recvNtpResponse_stratum {datagram : Bytes} {response : NtpResponse}
    (h : recvNtpResponse datagram = some response) : 0 ≤ response.stratum ∧ response.stratum ≤ maxStratum := by
  have hmask (x : Int32) : 0 ≤ (x &&& 0xFF).toInt ∧ (x &&& 0xFF).toInt ≤ maxStratum := by
    have hle : (x &&& 0xFF).toBitVec.toNat ≤ 0xFF := by
      rw [Int32.toBitVec_and, BitVec.toNat_and]
      exact Nat.and_le_right
    have hint : (x &&& 0xFF).toInt = (x &&& 0xFF).toBitVec.toNat := BitVec.toInt_eq_toNat_of_lt (by omega)
    rw [hint, maxStratum]
    omega
  unfold recvNtpResponse at h
  dsimp only at h
  split at h
  · cases h
  · split at h
    · cases h
      exact hmask _
    · cases h

theorem getTime_stratum {serverName : String} {sent received : Int64} {datagram : Bytes} {res : NtpResult}
    (h : getTime serverName sent received datagram = some res) :
    0 ≤ res.stratum ∧ res.stratum ≤ maxStratum := by
  unfold getTime at h
  rw [Option.map_eq_some_iff] at h
  obtain ⟨response, hrecv, rfl⟩ := h
  exact recvNtpResponse_stratum hrecv

/-- Servers that do not respond do not matter. -/
theorem bestResult_eq (uninit : NtpResult) (answers : List (Option NtpResult)) :
    bestResult uninit answers = select Replaces (impossibleResult uninit) answers.reduceOption := by
  unfold bestResult
  generalize impossibleResult uninit = start
  induction answers generalizing start with
  | nil => rfl
  | cons answer answers ih =>
      cases answer with
      | none => exact ih start
      | some res => exact ih (keep Replaces start res)

section Selection

variable {results : List NtpResult} {m m' r : NtpResult}

theorem notAfter_total (a b : NtpResult) : NotAfter a b ∨ NotAfter b a := by
  unfold NotAfter
  rcases lt_trichotomy a.stratum b.stratum with hlt | heq | hgt
  · exact .inl (.inl hlt)
  · rcases UInt32.le_total a.rootDispersion.toUInt32 b.rootDispersion.toUInt32 with hle | hge
    · exact .inl (.inr ⟨heq, hle⟩)
    · exact .inr (.inr ⟨heq.symm, hge⟩)
  · exact .inr (.inl hgt)

theorem NotAfter.trans {a b c : NtpResult} (hab : NotAfter a b) (hbc : NotAfter b c) : NotAfter a c := by
  rcases hab with hlt | ⟨heq, hle⟩
  · rcases hbc with hlt' | ⟨heq', -⟩
    · exact .inl (hlt.trans hlt')
    · exact .inl (heq' ▸ hlt)
  · rcases hbc with hlt' | ⟨heq', hle'⟩
    · exact .inl (heq ▸ hlt')
    · exact .inr ⟨heq.trans heq', UInt32.le_trans hle hle'⟩

theorem NotAfter.antisymm {a b : NtpResult} (hab : NotAfter a b) (hba : NotAfter b a) : Alike a b := by
  rcases hab with hlt | ⟨heq, hle⟩
  · rcases hba with hlt' | ⟨heq', -⟩
    · exact absurd (hlt.trans hlt') (lt_irrefl _)
    · exact absurd heq' hlt.ne'
  · rcases hba with hlt' | ⟨-, hle'⟩
    · exact absurd heq hlt'.ne'
    · exact ⟨heq, congrArg UInt32.toInt32 (UInt32.le_antisymm hle hle')⟩

theorem exists_isMinimum (h : results ≠ []) : ∃ m, IsMinimum m results := by
  induction results with
  | nil => exact absurd rfl h
  | cons r results ih =>
      have hrefl : NotAfter r r := .inr ⟨rfl, UInt32.le_refl _⟩
      by_cases hnil : results = []
      · refine ⟨r, List.mem_cons_self, ?_⟩
        rw [hnil, List.forall_mem_singleton]
        exact hrefl
      · obtain ⟨m, hm, hmin⟩ := ih hnil
        rcases notAfter_total r m with hrm | hmr
        · exact ⟨r, List.mem_cons_self, List.forall_mem_cons.mpr
            ⟨hrefl, fun x hx => hrm.trans (hmin x hx)⟩⟩
        · exact ⟨m, List.mem_cons_of_mem r hm, List.forall_mem_cons.mpr ⟨hmr, hmin⟩⟩

/-- What is alike to a minimum is one. -/
theorem IsMinimum.of_alike (h : IsMinimum m results) (hr : r ∈ results) (halike : Alike m r) :
    IsMinimum r results := by
  refine ⟨hr, fun x hx => ?_⟩
  have hx := h.2 x hx
  rwa [NotAfter, halike.1, halike.2] at hx

theorem IsMinimum.alike (h : IsMinimum m results) (h' : IsMinimum m' results) : Alike m m' :=
  (h.2 m' h'.1).antisymm (h'.2 m h.1)

theorem Replaces.of_alike {x : NtpResult} (h : Replaces x m) (halike : Alike m m') : Replaces x m' := by
  rwa [Replaces, halike.1, halike.2] at h

/-- A result that does not replace a minimum is replaced by it, if it is no minimum. -/
theorem IsMinimum.replaces (h : IsMinimum m results) (hr : r ∈ results) (hnot : ¬IsMinimum r results)
    (hkept : ¬Replaces r m) : Replaces m r := by
  rcases h.2 r hr with hlt | ⟨hstratum, -⟩
  · exact .inl hlt
  · unfold Replaces at hkept
    rw [not_or, not_lt, Int32.not_lt] at hkept
    rcases Int32.lt_or_eq_of_le hkept.2 with hlt | heq
    · exact .inr hlt
    · exact absurd (h.of_alike hr ⟨hstratum, heq⟩) hnot

/-- Only a smaller dispersion, as a signed number, replaces a minimum. -/
theorem IsMinimum.replaces_iff (h : IsMinimum m results) (hr : r ∈ results) :
    Replaces r m ↔ r.rootDispersion < m.rootDispersion := by
  unfold Replaces
  refine or_iff_right fun hlt => ?_
  rcases h.2 r hr with hlt' | ⟨heq, -⟩
  · exact absurd (hlt.trans hlt') (lt_irrefl _)
  · exact absurd heq hlt.ne'

end Selection

/-- What is expected of the selection: it finds a minimum of the responses, if there are any, and one
with the same stratum and dispersion when they come in another order. -/
structure SelectsMinimum (uninit : NtpResult) (answers : List (Option NtpResult)) : Prop where
  minimum : ∀ best, synchSource uninit answers = some best → IsMinimum best answers.reduceOption
  unordered : ∀ other : List (Option NtpResult), other.reduceOption.Perm answers.reduceOption →
    Option.Rel Alike (synchSource uninit answers) (synchSource uninit other)

section Source

variable {uninit : NtpResult} {answers : List (Option NtpResult)}

theorem synchSource_of_nil (hnil : answers.reduceOption = []) : synchSource uninit answers = none := by
  rw [synchSource, bestResult_eq, hnil]
  exact if_pos (Int.lt_succ maxStratum)

/-- The first response replaces what is not initialised, so that one of the responses is kept. -/
theorem synchSource_of_ne_nil (hstratum : ∀ r ∈ answers.reduceOption, r.stratum ≤ maxStratum)
    (hne : answers.reduceOption ≠ []) :
    select Replaces (impossibleResult uninit) answers.reduceOption ∈ answers.reduceOption ∧
      synchSource uninit answers =
        some (select Replaces (impossibleResult uninit) answers.reduceOption) := by
  have hmem : select Replaces (impossibleResult uninit) answers.reduceOption ∈ answers.reduceOption := by
    obtain ⟨first, rest, hcons⟩ := List.exists_cons_of_ne_nil hne
    rw [hcons] at hstratum ⊢
    have hlt : first.stratum < maxStratum + 1 := Int.lt_add_one_of_le (hstratum first List.mem_cons_self)
    have hfirst : keep Replaces (impossibleResult uninit) first = first := if_pos (.inl hlt)
    have hselect : select Replaces first rest ∈ first :: rest := select_mem first rest
    rw [select] at hselect
    rw [select, List.foldl_cons, hfirst]
    exact hselect
  refine ⟨hmem, ?_⟩
  rw [synchSource, bestResult_eq]
  exact if_neg (not_lt.mpr (hstratum _ hmem))

section Orders

variable (hstratum : ∀ r ∈ answers.reduceOption, r.stratum ≤ maxStratum) (hne : answers.reduceOption ≠ [])

include hstratum hne

/-- For responses there are, the selection is one from their list, in every order of it. -/
theorem selectsMinimum_iff_perm : SelectsMinimum uninit answers ↔
    ∀ l : List NtpResult, l.Perm answers.reduceOption →
      IsMinimum (select Replaces (impossibleResult uninit) l) answers.reduceOption := by
  have hsource (other : List (Option NtpResult)) (hperm : other.reduceOption.Perm answers.reduceOption) :=
    @synchSource_of_ne_nil uninit other (fun r hr => hstratum r (hperm.mem_iff.mp hr))
      fun h => hne (List.perm_nil.mp (h ▸ hperm.symm))
  have hsome := (hsource answers (List.Perm.refl _)).2
  constructor
  · intro h l hl
    have hother : (l.map some).reduceOption = l := List.filterMap_map.trans List.filterMap_some
    obtain ⟨hmem', hsome'⟩ := hsource (l.map some) (by rwa [hother])
    have halike := h.unordered (l.map some) (by rwa [hother])
    rw [hsome, hsome', Option.rel_some_some] at halike
    rw [hother] at hmem' halike
    exact (h.minimum _ hsome).of_alike (hl.mem_iff.mp hmem') halike
  · intro h
    refine ⟨fun best hbest => ?_, fun other hperm => ?_⟩
    · rw [hsome] at hbest
      cases hbest
      exact h _ (List.Perm.refl _)
    · rw [hsome, (hsource other hperm).2]
      exact .some ((h _ (List.Perm.refl _)).alike (h _ hperm))

theorem isMinimum_select_iff :
    (∀ l : List NtpResult, l.Perm answers.reduceOption →
      IsMinimum (select Replaces (impossibleResult uninit) l) answers.reduceOption) ↔
        ∀ m, IsMinimum m answers.reduceOption → ∀ r ∈ answers.reduceOption,
          m.rootDispersion ≤ r.rootDispersion := by
  obtain ⟨m, hm⟩ := exists_isMinimum hne
  have horder := @forall_perm_best_iff _ Replaces _ (fun r => IsMinimum r answers.reduceOption)
    (impossibleResult uninit) answers.reduceOption ⟨m, hm.1, hm⟩
    (fun m m' x hm hm' hreplaces => hreplaces.of_alike (hm.alike hm'))
    (fun m hm _ => .inl (Int.lt_add_one_of_le (hstratum m hm.1)))
    fun m hm x hx hnot hkept => hm.replaces hx hnot hkept
  refine horder.trans (forall₂_congr fun m hm => forall₂_congr fun r hr => ?_)
  rw [hm.replaces_iff hr, Int32.not_lt]
  constructor
  · intro h
    by_cases hr : IsMinimum r answers.reduceOption
    · rw [(hm.alike hr).2]
      exact Int32.le_refl _
    · exact h hr
  · exact fun h _ => h

end Orders

/-- **Selection of a synchronisation source.** The result is a minimum of the responses, in whatever
order they come, exactly if the dispersion of the minima is the least one as a signed number too. -/
theorem selects_minimum_iff (uninit : NtpResult) (answers : List (Option NtpResult))
    (hstratum : ∀ r ∈ answers.reduceOption, 0 ≤ r.stratum ∧ r.stratum ≤ maxStratum) :
    SelectsMinimum uninit answers ↔
      ∀ m, IsMinimum m answers.reduceOption → ∀ r ∈ answers.reduceOption,
        m.rootDispersion ≤ r.rootDispersion := by
  by_cases hnil : answers.reduceOption = []
  · constructor
    · intro _ m hm
      rw [hnil] at hm
      cases hm.1
    · intro _
      refine ⟨fun best hbest => ?_, fun other hperm => ?_⟩
      · rw [synchSource_of_nil hnil] at hbest
        cases hbest
      · rw [hnil, List.perm_nil] at hperm
        rw [synchSource_of_nil hnil, synchSource_of_nil hperm]
        exact .none
  · have hle : ∀ r ∈ answers.reduceOption, r.stratum ≤ maxStratum := fun r hr => (hstratum r hr).2
    exact (selectsMinimum_iff_perm hle hnil).trans (isMinimum_select_iff hle hnil)

end Source

/-- A result with a given stratum and dispersion. -/
def testResult (serverName : String) (stratum : Int) (rootDispersion : Int32) : NtpResult :=
  ⟨serverName, stratum, rootDispersion, 0⟩

theorem selects_minimum_iff_two :
    SelectsMinimum (testResult "" 0 0) [some (testResult "0.de" 2 7), none, some (testResult "1.de" 1 5)] := by
  refine (selects_minimum_iff (testResult "" 0 0) _ (by decide)).mpr ?_
  intro m hm r hr
  have hmem : m ∈ [testResult "0.de" 2 7, testResult "1.de" 1 5] := hm.1
  have hafter : ¬NotAfter (testResult "0.de" 2 7) (testResult "1.de" 1 5) := by
    unfold NotAfter
    decide
  have hlast : m = testResult "1.de" 1 5 := by
    rcases List.mem_pair.mp hmem with rfl | heq
    · exact absurd (hm.2 (testResult "1.de" 1 5) (by decide)) hafter
    · exact heq
  rw [hlast]
  exact (by decide : ∀ r ∈ [some (testResult "0.de" 2 7), none, some (testResult "1.de" 1 5)].reduceOption,
    (testResult "1.de" 1 5).rootDispersion ≤ r.rootDispersion) r hr

/-- A server with a smaller dispersion replaces one with a smaller stratum, if it comes later. -/
theorem later_dispersion_wins :
    synchSource (testResult "" 0 0) [some (testResult "0.de" 1 7), some (testResult "1.de" 2 5)] =
        some (testResult "1.de" 2 5) ∧
      synchSource (testResult "" 0 0) [some (testResult "1.de" 2 5), some (testResult "0.de" 1 7)] =
        some (testResult "0.de" 1 7) ∧
      ¬∀ uninit answers, (∀ r ∈ answers.reduceOption, 0 ≤ r.stratum ∧ r.stratum ≤ maxStratum) →
        SelectsMinimum uninit answers := by
  have hlater : synchSource (testResult "" 0 0)
      [some (testResult "0.de" 1 7), some (testResult "1.de" 2 5)] = some (testResult "1.de" 2 5) := by
    decide
  have hafter : ¬NotAfter (testResult "1.de" 2 5) (testResult "0.de" 1 7) := by
    unfold NotAfter
    decide
  refine ⟨hlater, by decide, fun h => ?_⟩
  have hmin := (h (testResult "" 0 0) _ (by decide)).minimum _ hlater
  exact hafter (hmin.2 (testResult "0.de" 1 7) (by decide))

/-! ### The on-wire calculation -/

/-- A number that an `int64_t` can hold. -/
def Fits (x : Int) : Prop := -2 ^ 63 ≤ x ∧ x < 2 ^ 63

instance : DecidablePred Fits := fun _ => inferInstanceAs (Decidable (_ ∧ _))

/-- What is expected of the calculation for a clock offset `theta` and network delays `d1` and `d2`. -/
structure Recovers (theta d1 d2 : Int) (t1 t2 t3 t4 : Int64) : Prop where
  delay : (timeDelay t1 t2 t3 t4).toInt = d1 + d2
  offset : (timeOffset t1 t2 t3 t4).toInt = (2 * theta + d1 - d2).tdiv 2
  noOverflow : Fits ((t2 - t1).toInt + (t3 - t4).toInt)
  near : 2 * |(timeOffset t1 t2 t3 t4).toInt - theta| ≤ (timeDelay t1 t2 t3 t4).toInt + 2

section Wire

theorem toInt_ofInt_iff (x : Int) : (Int64.ofInt x).toInt = x ↔ Fits x := by
  constructor
  · intro h
    rw [← h]
    exact ⟨(Int64.ofInt x).le_toInt, (Int64.ofInt x).toInt_lt⟩
  · exact fun h => Int64.toInt_ofInt_of_le h.1 h.2

/-- The number that an `int64_t` holds for another one differs from it by a multiple of `2 ^ 64`. -/
theorem emod_eq_of_toInt_ofInt {x y : Int} (h : (Int64.ofInt x).toInt = y) : y % 2 ^ 64 = x % 2 ^ 64 := by
  rw [← h, Int64.toInt_ofInt]
  exact Int.bmod_emod

variable (t1 : Int64) (theta d1 d2 p : Int)

/-- When the request comes to the server, by the clock of the server. -/
def serverReceived : Int64 := t1 + .ofInt d1 + .ofInt theta

/-- When the response leaves the server. -/
def serverSent : Int64 := serverReceived t1 theta d1 + .ofInt p

/-- When the response comes to the client, by the clock of the client. -/
def clientReceived : Int64 := t1 + .ofInt d1 + .ofInt p + .ofInt d2

theorem request_difference :
    serverReceived t1 theta d1 - t1 = .ofInt (d1 + theta) := by
  rw [Int64.ofInt_add, serverReceived]
  grind

theorem response_difference :
    serverSent t1 theta d1 p - clientReceived t1 d1 d2 p = .ofInt (theta - d2) := by
  rw [Int64.ofInt_sub, serverSent, serverReceived, clientReceived]
  grind

/-- The processing time of the server is added where it is to be subtracted. -/
theorem timeDelay_eq : timeDelay t1 (serverReceived t1 theta d1) (serverSent t1 theta d1 p)
    (clientReceived t1 d1 d2 p) = .ofInt (d1 + d2 + 2 * p) := by
  have htwice : Int64.ofInt (d1 + d2 + 2 * p) = .ofInt d1 + .ofInt d2 + (.ofInt p + .ofInt p) := by
    rw [Int.two_mul, Int64.ofInt_add, Int64.ofInt_add, Int64.ofInt_add]
  rw [htwice, timeDelay, serverSent, clientReceived]
  grind

theorem timeOffset_eq : timeOffset t1 (serverReceived t1 theta d1) (serverSent t1 theta d1 p)
    (clientReceived t1 d1 d2 p) = .ofInt (2 * theta + d1 - d2) / 2 := by
  rw [timeOffset, request_difference, response_difference, ← Int64.ofInt_add]
  congr 2
  omega

variable {t1 theta d1 d2 p}

/-- Half of a number is not far from it. -/
theorem two_mul_tdiv_two (x : Int) : x - 1 ≤ 2 * x.tdiv 2 ∧ 2 * x.tdiv 2 ≤ x + 1 := by
  have hsum := Int.mul_tdiv_add_tmod x 2
  have hlt : x.tmod 2 < 2 := Int.tmod_lt_of_pos x (by decide)
  have hgt : -2 < x.tmod 2 := Int.lt_tmod_of_pos x (by decide)
  omega

/-- **The on-wire calculation.** For delays and a processing time whose differences fit, the delay and
the offset are recovered exactly if the server takes no time and the sum in the offset does not
overflow. -/
theorem on_wire_iff (t1 : Int64) (theta d1 d2 p : Int) (hd1 : 0 ≤ d1) (hd2 : 0 ≤ d2) (hp : 0 ≤ p)
    (hrequest : Fits (d1 + theta)) (hresponse : Fits (theta - d2)) (hround : Fits (d1 + p + d2))
    (hserver : Fits p) :
    Recovers theta d1 d2 t1 (serverReceived t1 theta d1) (serverSent t1 theta d1 p)
        (clientReceived t1 d1 d2 p) ↔
      p = 0 ∧ Fits (2 * theta + d1 - d2) := by
  have hsum : (serverReceived t1 theta d1 - t1).toInt +
      (serverSent t1 theta d1 p - clientReceived t1 d1 d2 p).toInt = 2 * theta + d1 - d2 := by
    rw [request_difference, response_difference, (toInt_ofInt_iff _).mpr hrequest,
      (toInt_ofInt_iff _).mpr hresponse]
    omega
  constructor
  · intro h
    have hdelay := h.delay
    have hfits := h.noOverflow
    rw [timeDelay_eq] at hdelay
    rw [hsum] at hfits
    have hmod := emod_eq_of_toInt_ofInt hdelay
    unfold Fits at hround hserver
    exact ⟨by omega, hfits⟩
  · rintro ⟨rfl, hfits⟩
    have hdelay : (timeDelay t1 (serverReceived t1 theta d1) (serverSent t1 theta d1 0)
        (clientReceived t1 d1 d2 0)).toInt = d1 + d2 := by
      rw [timeDelay_eq, Int.mul_zero, Int.add_zero, toInt_ofInt_iff]
      rwa [Int.add_zero] at hround
    have hoffset : (timeOffset t1 (serverReceived t1 theta d1) (serverSent t1 theta d1 0)
        (clientReceived t1 d1 d2 0)).toInt = (2 * theta + d1 - d2).tdiv 2 := by
      rw [timeOffset_eq, Int64.toInt_div_of_ne_right _ _ (by decide), (toInt_ofInt_iff _).mpr hfits]
      rfl
    refine ⟨hdelay, hoffset, hsum.symm ▸ hfits, ?_⟩
    rw [hdelay, hoffset]
    have hhalf := two_mul_tdiv_two (2 * theta + d1 - d2)
    rcases abs_cases ((2 * theta + d1 - d2).tdiv 2 - theta) with ⟨habs, -⟩ | ⟨habs, -⟩ <;> omega

theorem on_wire_iff_symmetric :
    Recovers (-5) 3 3 0 (serverReceived 0 (-5) 3) (serverSent 0 (-5) 3 0) (clientReceived 0 3 3 0) :=
  (on_wire_iff 0 (-5) 3 3 0 (by decide) (by decide) (by decide)
    (by decide) (by decide) (by decide) (by decide)).mpr
    ⟨rfl, by decide⟩

end Wire

/-- The time that a clock reset to 1970 lacks to 2014. -/
def from1970To2014 : Int := 1388534400 * 2 ^ 32

/-- A processing time of one unit is counted twice as delay; and the offset of a clock that is reset to
1970 overflows. -/
theorem processing_time_and_overflow :
    (timeDelay 0 (serverReceived 0 0 0) (serverSent 0 0 0 1) (clientReceived 0 0 0 1)).toInt = 2 ∧
      (timeOffset (toNtp 0) (serverReceived (toNtp 0) from1970To2014 0)
        (serverSent (toNtp 0) from1970To2014 0 0) (clientReceived (toNtp 0) 0 0 0)).toInt =
          from1970To2014 - 2 ^ 63 ∧
      ¬∀ (t1 : Int64) (theta d1 d2 p : Int), 0 ≤ d1 → 0 ≤ d2 → 0 ≤ p → Fits (d1 + theta) →
        Fits (theta - d2) → Fits (d1 + p + d2) → Fits p →
          Recovers theta d1 d2 t1 (serverReceived t1 theta d1) (serverSent t1 theta d1 p)
            (clientReceived t1 d1 d2 p) := by
  have hdelay : (timeDelay 0 (serverReceived 0 0 0) (serverSent 0 0 0 1) (clientReceived 0 0 0 1)).toInt =
      2 := by decide
  refine ⟨hdelay, by decide, fun h => ?_⟩
  have hzero := (h 0 0 0 0 1 (by decide) (by decide) (by decide) (by decide)
    (by decide) (by decide) (by decide)).delay
  rw [hdelay] at hzero
  exact absurd hzero (by decide)

end ComputerNetworking.Ntp
