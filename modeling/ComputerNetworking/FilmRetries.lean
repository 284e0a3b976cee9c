import ComputerNetworking.FilmClient

/-! Retries of the film client (`Movie Parser/client.c`) against the table of the server.

In a turn of the loop of `perform_action` the request may not reach the server, or be executed, and then the
connection may end before the client has the whole response. The client asks again until what it takes for a
response has the action that it wants. A response to a delete has it only if there was something to delete; and
when a connection is closed without a response, `recv` does not fail, and the client looks at what its buffer
held before. -/

namespace ComputerNetworking.FilmClient

open Dht Datagrams Tcp

/-! ### Turns -/

/-- What becomes of the request in a turn: `connect` or `send` fails; it is sent, and the connection ends
without having been served; or the server executes it, and the connection ends behind the first `received` bytes
of the response. `header` and `heap` are what the memory of the client holds before, `stack` that of the server. -/
inductive Turn where
  | refused
  | unexecuted (header heap : Nat → UInt8) (last : Ending)
  | executed (stack : Stack) (ending : Ending) (received : Nat) (header heap : Nat → UInt8) (last : Ending)

namespace Turn

/-- The server executes the request in this turn. -/
def Executed : Turn → Prop
  | .executed .. => True
  | _ => False

/-- The client receives the complete response, which is a header for a set and for a delete. -/
def Answered : Turn → Prop
  | .executed _ _ received .. => headerLen ≤ received
  | _ => False

/-- The client has the first byte of the response, and the connection is closed behind what it has, or what
`msg_buffer` held behind it are lengths of zero. -/
def Heard : Turn → Prop
  | .executed _ _ received header _ last =>
      0 < received ∧ (last = .closed ∨ ∀ i, 2 ≤ i → received ≤ i → i < headerLen → header i = 0)
  | _ => False

end Turn

section Turns

variable (request : Bytes) (tbl : HashTable) (turns : Nat → Turn)

/-- A turn on a table: the table behind it, and what the client meets. -/
def turnOn (tbl : HashTable) : Turn → HashTable × Attempt
  | .refused => (tbl, .refused)
  | .unexecuted header heap last => (tbl, .sent header heap ⟨[], last⟩)
  | .executed stack ending received header heap last =>
      let (tbl, response) := serve stack tbl ⟨request, ending⟩
      (tbl, .sent header heap ⟨(response.getD []).take received, last⟩)

/-- The table in front of a turn. -/
def tableBefore : Nat → HashTable
  | 0 => tbl
  | i + 1 => (turnOn request (tableBefore i) (turns i)).1

/-- What the client meets in a turn. -/
def exchange (i : Nat) (request : Bytes) : Attempt :=
  (turnOn request (tableBefore request tbl turns i) (turns i)).2

end Turns

/-- How many turns the loop of `perform_action` makes. -/
def turnsMade (action : UInt8) : Nat → (Nat → Attempt) → Nat
  | 0, _ => 0
  | n + 1, attempts =>
      match attempt action (attempts 0) with
      | some _ => 1
      | none => turnsMade action n (fun i => attempts (i + 1)) + 1

section Call

variable (action : UInt8) (request : Bytes) (tbl : HashTable) (turns : Nat → Turn)

/-- How many turns a call makes. -/
def callTurns : Nat := turnsMade action retries fun i => exchange tbl turns i request

/-- The turn is made, and a key is bound in front of it and not behind it. -/
structure Removes (title : Bytes) (i : Nat) : Prop where
  made : i < callTurns action request tbl turns
  before : ((tableBefore request tbl turns i).bindings sizeHash title).isSome
  after : (tableBefore request tbl turns (i + 1)).bindings sizeHash title = none

end Call

/-! ### Reports -/

section Reports

variable (tbl : HashTable) (title key : Bytes) (transactionId : UInt8) (turns : Nat → Turn)

end Reports

/-- A table as the server over TCP has it: its keys have been received with their length in a field. -/
structure Held (tbl : HashTable) : Prop where
  wf : tbl.Wf sizeHash
  key_lt : ∀ key, (tbl.bindings sizeHash key).isSome → key.length < 65536

/-! ### Keys -/

/-- A key that is received fits its field. -/
theorem recvRequest_key_lt {stack : Stack} {s : Stream} {r : Tcp.Received} (h : recvRequest stack s = some r) :
    r.key.length < 65536 := by
  unfold recvRequest at h
  split at h
  · cases h
  · split at h
    · cases h
    · dsimp only at h
      split at h
      · rw [Option.bind_eq_some_iff] at h
        obtain ⟨⟨key, rest⟩, hread, h⟩ := h
        have hkey : key.length < 65536 := recvBuffer_length_lt hread
        dsimp only at h
        split at h
        · obtain ⟨⟨value, last⟩, -, rfl⟩ := Option.map_eq_some_iff.mp h
          exact hkey
        · cases h
          exact hkey
      · cases h
        exact Nat.zero_lt_succ _

/-- The server keeps its table so, whatever a client sends. -/
theorem Held.serve {tbl : HashTable} (h : Held tbl) (stack : Stack) (s : Stream) :
    Held (serve stack tbl s).1 := by
  unfold Tcp.serve
  cases hrecv : recvRequest stack s with
  | none => exact h
  | some r =>
      obtain ⟨hwf, hmap⟩ := processRequest_table h.wf r.action r.key r.value r.transactionId
      refine ⟨hwf, fun key hbound => ?_⟩
      by_cases hkey : key = r.key
      · rw [hkey]
        exact recvRequest_key_lt hrecv
      · refine h.key_lt key ?_
        rwa [hmap, mapAfter_of_ne hkey] at hbound

/-! ### Requests -/

section Memory

variable {mem : Nat → UInt8} {i : Nat}

end Memory

section Turn

variable {action : UInt8} {tbl : HashTable} {r : Request} {turn : Turn}

section Cut

variable (kept transactionId : UInt8) (header : Nat → UInt8) (received : Nat) {i : Nat}

end Cut

theorem Turn.Heard.executed (h : turn.Heard) : turn.Executed := by
  cases turn with
  | executed => trivial
  | refused | unexecuted => exact h

theorem Turn.Answered.executed (h : turn.Answered) : turn.Executed := by
  cases turn with
  | executed => trivial
  | refused | unexecuted => exact h

end Turn

/-! ### The loop -/

section Loop

variable {action : UInt8} {n : Nat} {attempts : Nat → Attempt}

end Loop

section Calls

variable {action : UInt8} {tbl : HashTable} {turns : Nat → Turn} {r : Request}

end Calls

section Deletion

variable {tbl : HashTable} {key title : Bytes} {transactionId : UInt8} {turns : Nat → Turn}

section Bound

variable (h : Held tbl) (hkey : IsString key title) (hbound : (tbl.bindings sizeHash title).isSome)
include h hkey hbound

end Bound

end Deletion

end ComputerNetworking.FilmClient
