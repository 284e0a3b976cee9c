import ComputerNetworking.Chaining

/-! The hash table of byte strings (`hash_table.c`).

Keys and values are byte lists, so that a pointer and its length are one value. The sizes are `Nat`:
the elements are distinct heap objects, fewer than a `size_t` can count. The two copies of the file
in the repository differ only in the width of `string_hash`; the table takes the hash function as a
parameter. -/

namespace ComputerNetworking.Dht

open Chaining

abbrev Bytes := List UInt8

/-- `string_hash` of the table used over UDP. The type `char` is signed. -/
def stringHash (str : Bytes) : UInt16 :=
  str.foldl (fun hash c => ((hash <<< 5) + hash) + c.toInt8.toInt16.toUInt16) 5381

/-- `string_hash` of the other tables, with the width of `size_t`. -/
def stringHash64 (str : Bytes) : UInt64 :=
  str.foldl (fun hash c => ((hash <<< 5) + hash) + c.toInt8.toInt64.toUInt64) 5381

/-- The hash of these tables. -/
def sizeHash (key : Bytes) : Nat := (stringHash64 key).toNat

/-- `hash_table_elem`, without the pointer to the next element of its chain. -/
structure HashTableElem where
  key : Bytes
  value : Bytes
  deriving DecidableEq, Repr

/-- `hash_table`. -/
structure HashTable where
  size : Nat
  nElems : Nat
  elems : Fin size → List HashTableElem
  size_pos : 0 < size

/-- `INITIAL_SIZE`. -/
def initialSize : Nat := 3

def htCreate : HashTable where
  size := initialSize
  nElems := 0
  elems := fun _ => []
  size_pos := by decide

section Hash

variable (hash : Bytes → Nat)

/-- `get_hash`. -/
def getHash (tbl : HashTable) (key : Bytes) : Fin tbl.size :=
  ⟨hash key % tbl.size, Nat.mod_lt _ tbl.size_pos⟩

/-- The table with another chain for a key. -/
def setList (tbl : HashTable) (key : Bytes) (list : List HashTableElem) : HashTable :=
  { tbl with elems := Function.update tbl.elems (getHash hash tbl key) list }

/-- `ht_get_value`: the status, `*res` and `*res_len`. -/
def htGetValue (tbl : HashTable) (key : Bytes) : Int × Option Bytes × Nat :=
  match find HashTableElem.key key (tbl.elems (getHash hash tbl key)) with
  | some elem => (0, some elem.value, elem.value.length)
  | none => (-1, none, 0)

/-- The table of twice the size that `resize` starts with. -/
def HashTable.doubled (tbl : HashTable) : HashTable where
  size := tbl.size * 2
  nElems := tbl.nElems
  elems := fun _ => []
  size_pos := Nat.mul_pos tbl.size_pos two_pos

def resize (tbl : HashTable) : HashTable :=
  { tbl.doubled with elems := relink HashTableElem.key (getHash hash tbl.doubled) tbl.elems }

/-- `ht_set_value` behind the check for a resize. -/
def setValue (tbl : HashTable) (key value : Bytes) : HashTable × Int :=
  let list := tbl.elems (getHash hash tbl key)
  match change HashTableElem.key key ({ · with value := value }) list with
  | some list => (setList hash tbl key list, 0)
  | none => ({ setList hash tbl key (⟨key, value⟩ :: list) with nElems := tbl.nElems + 1 }, 0)

/-- `ht_set_value`: the table and the status. -/
def htSetValue (tbl : HashTable) (key value : Bytes) : HashTable × Int :=
  setValue hash (if 4 * tbl.nElems > 3 * tbl.size then resize hash tbl else tbl) key value

/-- `ht_delete_key`: the table and the status. -/
def htDeleteKey (tbl : HashTable) (key : Bytes) : HashTable × Int :=
  match unlink HashTableElem.key key (tbl.elems (getHash hash tbl key)) with
  | some list => ({ setList hash tbl key list with nElems := tbl.nElems - 1 }, 0)
  | none => (tbl, -1)

end Hash

/-- The calls that a client of a table makes. -/
inductive Call where
  | set (key value : Bytes)
  | delete (key : Bytes)
  | get (key : Bytes)
  deriving DecidableEq, Repr

/-- The table after a call. -/
def Call.apply (hash : Bytes → Nat) (tbl : HashTable) : Call → HashTable
  | .set key value => (htSetValue hash tbl key value).1
  | .delete key => (htDeleteKey hash tbl key).1
  | .get _ => tbl

/-- The table after a sequence of calls. -/
def runCalls (hash : Bytes → Nat) (calls : List Call) : HashTable :=
  calls.foldl (Call.apply hash) htCreate

end ComputerNetworking.Dht
