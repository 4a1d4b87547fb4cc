import Brainfuck.Bytecode.Program

set_option autoImplicit false

/-! # Tapes

The cells that a program works on, and its pointer. The pointer is a signed word of 64 bits: it may
point outside the cells, and moving it too far wraps around. -/

namespace Brainfuck

structure Tape where
  cells : Array UInt8
  pointer : Int64
deriving DecidableEq, Repr

namespace Tape

/-- A tape without cells. -/
def empty : Tape := { cells := #[], pointer := 0 }

/-- The first number of cells for which there is never enough room: a quarter of all words. -/
def cellLimit : Nat := UInt64.size / 4

/-- A tape of zeros with the pointer at `start`; `none` if there is no room for it. -/
def blank? (size start : UInt64) : Option Tape :=
  if size.toNat < cellLimit then
    some { cells := Array.replicate size.toNat 0, pointer := start.toInt64 }
  else none

/-- The cell that the pointer is at, if it is at one. -/
def index? (t : Tape) : Option (Fin t.cells.size) :=
  if h : 0 ≤ t.pointer.toInt ∧ t.pointer.toInt.toNat < t.cells.size then
    some ⟨t.pointer.toInt.toNat, h.2⟩
  else none

/-- The value of a cell. -/
def get (t : Tape) (i : Fin t.cells.size) : UInt8 := t.cells[i]

/-- Gives a cell a value. -/
def set (t : Tape) (i : Fin t.cells.size) (b : UInt8) : Tape :=
  { t with cells := t.cells.set i b }

/-- Moves the pointer to the right. -/
def moveRight (t : Tape) (n : UInt64) : Tape :=
  { t with pointer := t.pointer + n.toInt64 }

/-- Moves the pointer to the left. -/
def moveLeft (t : Tape) (n : UInt64) : Tape :=
  { t with pointer := t.pointer - n.toInt64 }

/-- The cells that are not zero, with their places. -/
def nonzero (t : Tape) : List (Nat × UInt8) :=
  (t.cells.toList.zipIdx.filter (·.1 != 0)).map fun (b, i) => (i, b)

@[simp] theorem size_cells_set (t : Tape) (i : Fin t.cells.size) (b : UInt8) :
    (t.set i b).cells.size = t.cells.size := by
  simp [set]

@[simp] theorem pointer_set (t : Tape) (i : Fin t.cells.size) (b : UInt8) :
    (t.set i b).pointer = t.pointer := rfl

@[simp] theorem cells_moveRight (t : Tape) (n : UInt64) : (t.moveRight n).cells = t.cells := rfl

@[simp] theorem cells_moveLeft (t : Tape) (n : UInt64) : (t.moveLeft n).cells = t.cells := rfl

end Tape

end Brainfuck
