import ComputerNetworking.TcpServer

/-! Requests that are served more than once, as those of a client that tries again.

What a request asks for is done by its first execution: the map after it is a fixed point of the request.
So the chains of the table may still change, but not what they store, nor the answer. -/

namespace ComputerNetworking.Tcp

open Dht

/-- A request asks for the same map when it is made again. -/
theorem mapAfter_mapAfter (action : UInt8) (key value : Bytes) (map : Bytes → Option Bytes) :
    mapAfter action key value (mapAfter action key value map) = mapAfter action key value map := by
  unfold mapAfter
  by_cases hset : action &&& setMask = 0
  · by_cases hdelete : action &&& deleteMask = 0
    · simp [hset, hdelete]
    · simp [hset, hdelete]
  · by_cases hdelete : action &&& deleteMask = 0
    · simp [hset, hdelete]
    · simp [hset, hdelete]

/-- The connections carry the request, and possibly more behind it. -/
def CarryRequest (r : Request) (connections : Nat → Stack × Stream) : Prop :=
  ∀ i, ∃ rest, (connections i).2.bytes = r.encode ++ rest

/-- The table when the first `n` connections have been served. -/
def tableAt (tbl : HashTable) (connections : Nat → Stack × Stream) : Nat → HashTable
  | 0 => tbl
  | n + 1 => (serve (connections n).1 (tableAt tbl connections n) (connections n).2).1

/-- What is sent back on the connection `i`. -/
def responseAt (tbl : HashTable) (connections : Nat → Stack × Stream) (i : Nat) : Option Bytes :=
  (serve (connections i).1 (tableAt tbl connections i) (connections i).2).2

section Repeated

variable {tbl : HashTable} {r : Request} {connections : Nat → Stack × Stream}

/-- One more execution of a request. -/
theorem tableAt_succ (hkey : r.key ≠ []) (hcarry : CarryRequest r connections) {i : Nat}
    (hwf : (tableAt tbl connections i).Wf sizeHash) :
    (tableAt tbl connections (i + 1)).Wf sizeHash ∧
      (tableAt tbl connections (i + 1)).bindings sizeHash =
        mapAfter r.action r.key r.value ((tableAt tbl connections i).bindings sizeHash) ∧
      responseAt tbl connections i = some (responseTo ((tableAt tbl connections i).bindings sizeHash) r) := by
  obtain ⟨rest, hbytes⟩ := hcarry i
  obtain ⟨after, hserve, hafter, hmap⟩ := serve_encode hwf (connections i).1 r hkey rest
    (connections i).2.ending
  have hstream : (connections i).2 = ⟨r.encode ++ rest, (connections i).2.ending⟩ := by rw [← hbytes]
  rw [← hstream] at hserve
  have htable : tableAt tbl connections (i + 1) = after := congrArg Prod.fst hserve
  exact ⟨htable ▸ hafter, htable ▸ hmap, congrArg Prod.snd hserve⟩

/-- All executions after the first one find the map that the first one has left. -/
theorem tableAt_bindings (hwf : tbl.Wf sizeHash) (hkey : r.key ≠ []) (hcarry : CarryRequest r connections)
    (i : Nat) : (tableAt tbl connections i).Wf sizeHash ∧
      (tableAt tbl connections (i + 1)).bindings sizeHash =
        mapAfter r.action r.key r.value (tbl.bindings sizeHash) := by
  induction i with
  | zero => exact ⟨hwf, (tableAt_succ hkey hcarry (i := 0) hwf).2.1⟩
  | succ i ih =>
      obtain ⟨hwf', hmap⟩ := ih
      have hnext := (tableAt_succ hkey hcarry hwf').1
      refine ⟨hnext, ?_⟩
      rw [(tableAt_succ hkey hcarry hnext).2.1, hmap, mapAfter_mapAfter]

end Repeated

/-- **Requests are idempotent.** A request with a key that is served `n` times leaves the map and the
number of elements that it leaves when it is served once, and all responses from the second one on are
the same. -/
theorem request_idempotent (calls : List Call) (r : Request) (hkey : r.key ≠ [])
    (connections : Nat → Stack × Stream) (hcarry : CarryRequest r connections) :
    (∀ n, 1 ≤ n →
      (tableAt (runCalls sizeHash calls) connections n).bindings sizeHash =
        (tableAt (runCalls sizeHash calls) connections 1).bindings sizeHash ∧
      (tableAt (runCalls sizeHash calls) connections n).nElems =
        (tableAt (runCalls sizeHash calls) connections 1).nElems) ∧
    ∀ i j, 1 ≤ i → 1 ≤ j → responseAt (runCalls sizeHash calls) connections i =
      responseAt (runCalls sizeHash calls) connections j := by
  have hwf := (runCalls_spec sizeHash calls).1
  have hmap : ∀ n, 1 ≤ n → (tableAt (runCalls sizeHash calls) connections n).Wf sizeHash ∧
      (tableAt (runCalls sizeHash calls) connections n).bindings sizeHash =
        mapAfter r.action r.key r.value ((runCalls sizeHash calls).bindings sizeHash) := by
    intro n hn
    obtain ⟨i, rfl⟩ := Nat.exists_eq_add_of_le' hn
    exact ⟨(tableAt_bindings hwf hkey hcarry (i + 1)).1, (tableAt_bindings hwf hkey hcarry i).2⟩
  have hone := hmap 1 le_rfl
  constructor
  · intro n hn
    have hn := hmap n hn
    have hsame := hn.2.trans hone.2.symm
    refine ⟨hsame, ?_⟩
    rw [hn.1.ncard_bindings, hone.1.ncard_bindings, hsame]
  · intro i j hi hj
    rw [(tableAt_succ hkey hcarry (hmap i hi).1).2.2, (tableAt_succ hkey hcarry (hmap j hj).1).2.2,
      (hmap i hi).2, (hmap j hj).2]

/-- DEL and GET of a bound key: only the first response tells that it has been deleted. -/
theorem request_idempotent_delete :
    responseAt (runCalls sizeHash [.set [97] [98]]) (fun _ =>
        (zeroStack, ⟨(⟨5, 0, [97], [], by decide, by decide, by decide⟩ : Request).encode, .closed⟩)) 2 =
      responseAt (runCalls sizeHash [.set [97] [98]]) (fun _ =>
        (zeroStack, ⟨(⟨5, 0, [97], [], by decide, by decide, by decide⟩ : Request).encode, .closed⟩)) 1 :=
  (request_idempotent [.set [97] [98]] ⟨5, 0, [97], [], by decide, by decide, by decide⟩ (by decide) _
    fun _ => ⟨[], (List.append_nil _).symm⟩).2 2 1 (by decide) (by decide)

end ComputerNetworking.Tcp
