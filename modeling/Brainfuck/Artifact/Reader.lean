set_option autoImplicit false

/-! # Reading values off bytes

A reader takes a value off the front of some bytes and leaves the bytes after it. The first failure
in reading order is the one that is reported. -/

namespace Brainfuck

/-- Why bytes do not hold the expected values. -/
inductive PayloadError where
  /-- The bytes end inside a value. -/
  | endOfBytes
  /-- A variable-length number is too long or too large. -/
  | badVarint
  /-- A truth value is neither 0 nor 1. -/
  | badBool
  /-- No instruction has this number. -/
  | badVariant
deriving DecidableEq, Repr

namespace PayloadError

def message : PayloadError → String
  | endOfBytes => "Hit the end of buffer, expected more data"
  | badVarint =>
    "Found a varint that didn't terminate. Is the usize too big for this platform?"
  | badBool => "Found a bool that wasn't 0 or 1"
  | badVariant => "Serde Deserialization Error"

end PayloadError

abbrev Reader := StateT (List UInt8) (Except PayloadError)

namespace Reader

/-- One byte. -/
def byte : Reader UInt8 := fun bytes =>
  match bytes with
  | [] => .error .endOfBytes
  | b :: rest => .ok (b, rest)

/-- A truth value, written as 0 or 1. -/
def bool : Reader Bool := do
  match ← byte with
  | 0 => return false
  | 1 => return true
  | _ => throw .badBool

@[simp] theorem byte_nil : byte [] = .error .endOfBytes := rfl

@[simp] theorem byte_cons (b : UInt8) (rest : List UInt8) : byte (b :: rest) = .ok (b, rest) := rfl

end Reader

end Brainfuck
