import ComputerNetworking.FilmRetries

/-! Which answers the film client accepts (`perform_action` of `Movie Parser/client.c`).

The client looks at a failure of `recv`, not at how much it has read, and walks through the fields of a
value without looking at its length. So the header, the lengths and the fields may come from memory. -/

namespace ComputerNetworking.FilmClient

open Dht Datagrams Tcp

/-! ### What an answer says -/

section Answer

variable (header heap : Nat → UInt8) (answer : Stream)

/-- The header buffer when the header has been received. -/
def msgBuffer : Bytes := recvInto header headerLen (answer.bytes.take headerLen)

/-- A value with zeros behind it. -/
def inMemory (value : Bytes) : Nat → UInt8 := fun i => value.getD i 0

/-- The bytes of the value in an answer. -/
def valueOf : Bytes := (answer.bytes.drop (headerLen + keyLen answer)).take (valueLen answer)

/-- The value buffer and what is in memory behind it. -/
def valBuffer : Nat → UInt8 := fun i => if i < valueLen answer then (valueOf answer).getD i 0 else heap i

/-- The answer has all the bytes that its header declares, and the lengths of the fields in its value add
up to the length of the value. -/
structure Sound : Prop where
  complete : headerLen + keyLen answer + valueLen answer ≤ answer.bytes.length
  fields : 0 < valueLen answer → curVal (inMemory (valueOf answer)) nFields = valueLen answer

end Answer

def Attempt.Sound : Attempt → Prop
  | .refused => False
  | .sent _ _ answer => FilmClient.Sound answer

section Walk

variable {value : Bytes}

end Walk

/-! ### One turn -/

section Turn

variable {header heap : Nat → UInt8} {answer : Stream}

end Turn

/-! ### The loop -/

section Loop

variable {transactionId : UInt8} {key : Bytes} {exchange : Nat → Bytes → Attempt}

end Loop

end ComputerNetworking.FilmClient
