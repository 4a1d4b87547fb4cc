import Brainfuck.Structured.LoopTree
import Brainfuck.Bytecode.Op

set_option autoImplicit false

/-! # The code of a loop tree

The code of a tree by recursion on the tree, without labels: the code of a loop is the code of its
body between two jumps, whose distances are known from its length. -/

namespace Brainfuck

/-- The instructions for `n` times the same action. -/
def Action.code (n : Nat) : Action → List Op
  | increment => [.addCell (UInt8.ofNat n)]
  | decrement => [.subCell (UInt8.ofNat n)]
  | moveLeft => [.moveLeft (UInt64.ofNat n)]
  | moveRight => [.moveRight (UInt64.ofNat n)]
  | write => List.replicate n .write
  | read => List.replicate n .read

namespace LoopTree

/-- A loop around the code of its body: past the loop on zero, and back to the test at its end. -/
def loopCode (body : List Op) : List Op :=
  .jumpIfZero (Int32.ofInt (body.length + 2)) ::
    (body ++ [.jump (Int32.ofInt (-(body.length + 1)))])

/-- The code of a tree of runs. -/
def code : LoopTree (Action × Nat) → List Op
  | done => []
  | leaf (a, n) rest => a.code n ++ rest.code
  | loop body rest => loopCode body.code ++ rest.code

@[simp] theorem length_loopCode (body : List Op) :
    (loopCode body).length = body.length + 2 := by
  simp [loopCode]

end LoopTree

end Brainfuck
