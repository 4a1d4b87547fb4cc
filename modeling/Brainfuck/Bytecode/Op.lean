set_option autoImplicit false

/-! # Instructions

The instruction set of the bytecode machine. An instruction acts on the cell under the pointer, on
the pointer, on a stream, or on the flow of control. Jumps carry the distance from themselves to
their target. -/

namespace Brainfuck

inductive Op where
  /-- Adds a constant to the cell, modulo 256. -/
  | addCell (n : UInt8)
  /-- Subtracts a constant from the cell, modulo 256. -/
  | subCell (n : UInt8)
  /-- Moves the pointer to the right. -/
  | moveRight (n : UInt64)
  /-- Moves the pointer to the left. -/
  | moveLeft (n : UInt64)
  /-- Writes the cell to the output. -/
  | write
  /-- Reads a byte of input into the cell. -/
  | read
  /-- Goes on at the given distance. -/
  | jump (offset : Int32)
  /-- Goes on at the given distance if the cell is zero. -/
  | jumpIfZero (offset : Int32)
  /-- Ends the program. -/
  | halt
deriving DecidableEq, Repr, Inhabited

namespace Op

/-- The distance of a jump; `none` for an instruction that does not jump. -/
def offset? : Op → Option Int32
  | jump offset | jumpIfZero offset => some offset
  | _ => none

/-- The same jump over another distance; `none` for an instruction that does not jump. -/
def withOffset? (offset : Int32) : Op → Option Op
  | jump _ => some (jump offset)
  | jumpIfZero _ => some (jumpIfZero offset)
  | _ => none

/-- An instruction as messages show it: its name and its argument in parentheses. -/
def text : Op → String
  | addCell n => s!"AddCell({n.toNat})"
  | subCell n => s!"SubCell({n.toNat})"
  | moveRight n => s!"MoveRight({n.toNat})"
  | moveLeft n => s!"MoveLeft({n.toNat})"
  | write => "Write"
  | read => "Read"
  | jump offset => s!"Jump({offset.toInt})"
  | jumpIfZero offset => s!"JumpIfZero({offset.toInt})"
  | halt => "Return"

/-- Exactly the jumps can be given another distance. -/
theorem isSome_withOffset? (offset : Int32) (op : Op) :
    (op.withOffset? offset).isSome = op.offset?.isSome := by
  cases op <;> rfl

end Op

end Brainfuck
