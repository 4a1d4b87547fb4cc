import Brainfuck.Machine.Stream
import Brainfuck.Machine.Tape

set_option autoImplicit false

/-! # Steps of the machine

The machine executes one instruction at a time. An instruction that looks at the cell under the
pointer traps if there is none; a move traps only if the program asks for it, and then the pointer
has moved already. A jump may lead to any instruction or right behind the last one, where the
program ends as it does at `halt`. -/

namespace Brainfuck

/-! ## Errors -/

/-- Why a run fails. -/
inductive RunError where
  /-- The pointer is at no cell. -/
  | pointerOutOfBounds (pointer : Int64) (cells ip : Nat)
  /-- There is no room for the memory. -/
  | memoryAllocation (cells : Nat)
  /-- A jump leads out of the program. -/
  | badJump (ip : Nat) (target : Int)
  /-- More instructions were due than the limit allows. -/
  | stepLimit (limit : Nat)
  /-- A stream failed. -/
  | stream (cause : StreamError)
deriving DecidableEq, Repr

namespace RunError

def message : RunError → String
  | pointerOutOfBounds pointer cells ip =>
    s!"runtime error: pointer {pointer.toInt} is outside memory of {cells} cells (at ip {ip})"
  | memoryAllocation cells => s!"runtime error: cannot allocate memory of {cells} cells"
  | badJump ip target => s!"runtime error: jump at ip {ip} targets {target}, outside the program"
  | stepLimit limit => s!"runtime error: execution step limit exceeded ({limit})"
  | stream cause => s!"runtime error: i/o failure: {cause.message}"

end RunError

/-! ## States -/

/-- A running program: its tape and streams, the place of the next instruction, and how many
    instructions have been executed. -/
structure Machine where
  tape : Tape
  streams : Streams
  ip : Nat := 0
  steps : Nat := 0
deriving DecidableEq, Repr

/-- What a step leads to. -/
inductive Step where
  /-- The program goes on. -/
  | next (m : Machine)
  /-- The program has ended. -/
  | done (outcome : Except RunError Unit) (m : Machine)

namespace Machine

/-- The byte that a read stores at the end of the input. -/
def endOfInput : UInt8 := 255

/-- Ends the program with an error. -/
def fail (m : Machine) (e : RunError) : Step := .done (.error e) m

/-- Ends the program because the pointer is at no cell. -/
def trap (m : Machine) : Step :=
  m.fail (.pointerOutOfBounds m.tape.pointer m.tape.cells.size m.ip)

/-- Goes on with the instruction behind this one. -/
def advance (m : Machine) : Step := .next { m with ip := m.ip + 1 }

/-- Replaces the cell under the pointer. -/
def updateCell (m : Machine) (f : UInt8 → UInt8) : Step :=
  match m.tape.index? with
  | none => m.trap
  | some i => { m with tape := m.tape.set i (f (m.tape.get i)) }.advance

/-- Goes on after a move, unless the move has left the memory and that is an error by itself. -/
def checkMove (m : Machine) (boundsCheck : Bool) : Step :=
  if boundsCheck && m.tape.index?.isNone then m.trap else m.advance

/-- Writes the cell under the pointer to the output. -/
def writeCell (m : Machine) : Step :=
  match m.tape.index? with
  | none => m.trap
  | some i =>
    match m.streams.write (m.tape.get i) with
    | (.error e, streams) => { m with streams }.fail (.stream e)
    | (.ok (), streams) => { m with streams }.advance

/-- Flushes the output, takes a byte of input, and only then stores it under the pointer. -/
def readCell (m : Machine) : Step :=
  match m.streams.flush with
  | (.error e, streams) => { m with streams }.fail (.stream e)
  | (.ok (), streams) =>
    match streams.read with
    | (.error e, streams) => { m with streams }.fail (.stream e)
    | (.ok byte, streams) => { m with streams }.updateCell fun _ => byte.getD endOfInput

/-- Goes on at the given distance, in a program of `size` instructions. -/
def jump (m : Machine) (size : Nat) (offset : Int32) : Step :=
  let target := m.ip + offset.toInt
  if 0 ≤ target ∧ target ≤ size then .next { m with ip := target.toNat }
  else m.fail (.badJump m.ip target)

/-- Goes on at the given distance if the cell under the pointer is zero. -/
def jumpIfZero (m : Machine) (size : Nat) (offset : Int32) : Step :=
  match m.tape.index? with
  | none => m.trap
  | some i => if m.tape.get i = 0 then m.jump size offset else m.advance

/-- Executes one instruction of `p`. -/
def execute (p : Program) (m : Machine) : Op → Step
  | .addCell n => m.updateCell (· + n)
  | .subCell n => m.updateCell (· - n)
  | .moveRight n => { m with tape := m.tape.moveRight n }.checkMove p.boundsCheck
  | .moveLeft n => { m with tape := m.tape.moveLeft n }.checkMove p.boundsCheck
  | .write => m.writeCell
  | .read => m.readCell
  | .jump offset => m.jump p.ops.size offset
  | .jumpIfZero offset => m.jumpIfZero p.ops.size offset
  | .halt => .done (.ok ()) m

/-- Whether the limit forbids one more instruction; the limit it then exceeds. -/
def exceeded? (m : Machine) (limit : Option Nat) : Option Nat :=
  limit.filter (· ≤ m.steps)

/-- One step of `p`. Behind the last instruction the program ends, whatever the limit. -/
def step (p : Program) (limit : Option Nat) (m : Machine) : Step :=
  match p.ops[m.ip]? with
  | none => .done (.ok ()) m
  | some op =>
    match m.exceeded? limit with
    | some n => m.fail (.stepLimit n)
    | none => { m with steps := m.steps + 1 }.execute p op

end Machine

end Brainfuck
