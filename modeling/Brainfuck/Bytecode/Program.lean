import Brainfuck.Bytecode.Op

set_option autoImplicit false

/-! # Programs

A program declares its memory and lists its instructions. -/

namespace Brainfuck

/-- The number of cells of a program that does not ask for another number. -/
def defaultMemorySize : UInt64 := 30000

@[ext] structure Program where
  /-- How many cells the program works on. -/
  memorySize : UInt64 := defaultMemorySize
  /-- Where the pointer starts. -/
  pointerStart : UInt64 := 0
  /-- Whether a move that leaves the memory is an error by itself. -/
  boundsCheck : Bool := false
  /-- The instructions, the first one first. -/
  ops : Array Op
deriving DecidableEq, Repr, Inhabited

end Brainfuck
