import Brainfuck.Source.Run
import Brainfuck.Bytecode.Assembly
import Brainfuck.Bytecode.Program

set_option autoImplicit false

/-! # Compiling runs to programs

One walk over the runs. A run of cell or pointer commands becomes a single instruction; reads and
writes stay separate instructions, one for each time. An opening bracket puts down a conditional
jump past its loop and remembers the loop; a closing bracket jumps back to the innermost loop that
is still open and ends it. Brackets are handled one at a time, so a run of them that is too long is
reported at its first bracket too many. -/

namespace Brainfuck

/-! ## Errors -/

/-- Why a source has no program. -/
inductive CompileError where
  /-- The loop opened here is never closed. -/
  | unmatchedOpen (position : Position)
  /-- The bracket here closes no loop. -/
  | unmatchedClose (position : Position)
  /-- A program needs at least one cell. -/
  | zeroMemory
  /-- The code cannot be assembled. -/
  | assembly (cause : AssemblyError)
deriving DecidableEq, Repr

namespace CompileError

/-- The place in the source that the error is about. -/
def position? : CompileError → Option Position
  | unmatchedOpen position | unmatchedClose position => some position
  | zeroMemory | assembly _ => none

def message : CompileError → String
  | unmatchedOpen position =>
    s!"compile error: {position.text}: [ without matching ]\n" ++
      "  hint: add a `]` to close the loop opened here"
  | unmatchedClose position =>
    s!"compile error: {position.text}: ] without matching [\n" ++
      "  hint: remove this `]` or open a loop before it"
  | zeroMemory => "compile error: memory size must be at least 1 cell"
  | assembly cause => s!"compile error: internal error: {cause.message}"

end CompileError

/-! ## Settings -/

/-- What the program declares about its memory. -/
structure Target where
  memorySize : UInt64 := defaultMemorySize
  boundsCheck : Bool := false
deriving DecidableEq, Repr

/-- All that decides what a source compiles to. -/
structure CompileOptions extends Target where
  policy : RunPolicy := .adjacent
deriving DecidableEq, Repr

/-! ## Code generation -/

/-- A loop whose closing bracket has not been met. -/
structure OpenLoop where
  /-- The place of the loop's test. -/
  head : Label
  /-- The place after the loop. -/
  exit : Label
  /-- Where the run of the opening bracket starts in the source. -/
  position : Position
deriving Repr

/-- The code so far and the loops that are open, the innermost first. -/
structure Codegen where
  assembly : Assembly
  loops : List OpenLoop
deriving Repr

namespace Codegen

def start : Codegen := { assembly := .empty, loops := [] }

/-- Puts down an instruction. -/
def emit (g : Codegen) (op : Op) : Codegen :=
  { g with assembly := g.assembly.emit op }

/-- Gives a label the current place. -/
def mark (a : Assembly) (label : Label) : Except CompileError Assembly :=
  (a.markLabel label).mapError .assembly

/-- An opening bracket: the loop's head is here, and its test leaves the loop on zero. -/
def openLoop (g : Codegen) (position : Position) : Except CompileError Codegen := do
  let (head, a) := g.assembly.defineLabel
  let (exit, a) := a.defineLabel
  let a ← mark a head
  return {
    assembly := a.emitJump (.jumpIfZero 0) exit
    loops := { head, exit, position } :: g.loops }

/-- A closing bracket: back to the head of the innermost open loop, whose exit is behind the jump. -/
def closeLoop (g : Codegen) (position : Position) : Except CompileError Codegen :=
  match g.loops with
  | [] => .error (.unmatchedClose position)
  | l :: outer => do
    let a ← mark (g.assembly.emitJump (.jump 0) l.head) l.exit
    return { assembly := a, loops := outer }

/-- Does `act` the given number of times, or until it fails. -/
def repeated (act : Codegen → Except CompileError Codegen) :
    Nat → Codegen → Except CompileError Codegen
  | 0, g => .ok g
  | n + 1, g => do repeated act n (← act g)

/-- The code for one run. -/
def run (g : Codegen) (r : Run) : Except CompileError Codegen :=
  match r.command with
  | .increment => .ok (g.emit (.addCell (UInt8.ofNat r.count)))
  | .decrement => .ok (g.emit (.subCell (UInt8.ofNat r.count)))
  | .moveRight => .ok (g.emit (.moveRight (UInt64.ofNat r.count)))
  | .moveLeft => .ok (g.emit (.moveLeft (UInt64.ofNat r.count)))
  | .write => .ok { g with assembly := g.assembly.emitCopies .write r.count }
  | .read => .ok { g with assembly := g.assembly.emitCopies .read r.count }
  | .loopStart => repeated (openLoop · r.position) r.count g
  | .loopEnd => repeated (closeLoop · r.position) r.count g

/-- The finished code, once no loop is open. -/
def finish (g : Codegen) : Except CompileError (Array Op) :=
  match g.loops with
  | l :: _ => .error (.unmatchedOpen l.position)
  | [] => (g.emit .halt).assembly.finish.mapError .assembly

end Codegen

namespace Program

/-- The program of a list of runs. -/
def ofRuns (target : Target) (runs : List Run) : Except CompileError Program :=
  if target.memorySize = 0 then .error .zeroMemory
  else do
    let g ← runs.foldlM Codegen.run .start
    return {
      memorySize := target.memorySize
      boundsCheck := target.boundsCheck
      ops := ← g.finish }

/-- The program of a source. -/
def compile (options : CompileOptions) (source : String) : Except CompileError Program :=
  ofRuns options.toTarget (Run.ofSource options.policy source)

end Program

end Brainfuck
