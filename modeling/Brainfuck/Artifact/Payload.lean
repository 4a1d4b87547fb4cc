import Brainfuck.Artifact.Varint
import Brainfuck.Bytecode.Program

set_option autoImplicit false

/-! # Programs as bytes

The memory size, the start of the pointer, the bounds check, the number of instructions, then the
instructions. Each instruction is a number for its kind, followed by its argument if it has one. -/

namespace Brainfuck

namespace Payload

/-! ## Words -/

def writeWord (n : UInt64) : List UInt8 := Varint.word64.write n.toNat

def readWord : Reader UInt64 := return UInt64.ofNat (← Varint.word64.read)

def writeOffset (n : Int32) : List UInt8 := Varint.word32.write (Zigzag.fold n.toInt)

def readOffset : Reader Int32 := return Int32.ofInt (Zigzag.unfold (← Varint.word32.read))

def writeBool (b : Bool) : List UInt8 := [if b then 1 else 0]

/-! ## Instructions -/

/-- The number of an instruction's kind. -/
def variant : Op → Nat
  | .addCell _ => 0
  | .subCell _ => 1
  | .moveRight _ => 2
  | .moveLeft _ => 3
  | .write => 4
  | .read => 5
  | .jump _ => 6
  | .jumpIfZero _ => 7
  | .halt => 8

/-- The argument of an instruction. -/
def writeArgument : Op → List UInt8
  | .addCell n | .subCell n => [n]
  | .moveRight n | .moveLeft n => writeWord n
  | .jump offset | .jumpIfZero offset => writeOffset offset
  | .write | .read | .halt => []

def writeOp (op : Op) : List UInt8 :=
  Varint.word32.write (variant op) ++ writeArgument op

def readOp : Reader Op := do
  match ← Varint.word32.read with
  | 0 => return .addCell (← Reader.byte)
  | 1 => return .subCell (← Reader.byte)
  | 2 => return .moveRight (← readWord)
  | 3 => return .moveLeft (← readWord)
  | 4 => return .write
  | 5 => return .read
  | 6 => return .jump (← readOffset)
  | 7 => return .jumpIfZero (← readOffset)
  | 8 => return .halt
  | _ => throw .badVariant

/-- Reads `n` instructions and puts them behind `before`. -/
def readOps (before : Array Op) : (n : Nat) → Reader (Array Op)
  | 0 => return before
  | n + 1 => do readOps (before.push (← readOp)) n

/-! ## Programs -/

def write (p : Program) : List UInt8 :=
  writeWord p.memorySize ++ writeWord p.pointerStart ++ writeBool p.boundsCheck ++
    Varint.word64.write p.ops.size ++ p.ops.toList.flatMap writeOp

def read : Reader Program := do
  let memorySize ← readWord
  let pointerStart ← readWord
  let boundsCheck ← Reader.bool
  let count ← Varint.word64.read
  return { memorySize, pointerStart, boundsCheck, ops := ← readOps #[] count }

end Payload

end Brainfuck
