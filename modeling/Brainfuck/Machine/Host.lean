import Brainfuck.Machine.Outcome

set_option autoImplicit false

/-! # Hosts

A host runs programs, one after the other. It keeps the tape of the last program, whether its moves
were checked, and how many instructions have been executed. A program for which there is no room
leaves all this as it is; any other starts from values of its own, whatever the host has run before.
The limit on instructions belongs to the host and holds for each run. -/

namespace Brainfuck

structure Host where
  /-- How many instructions a run may execute. -/
  limit : Option Nat := none
  tape : Tape := .empty
  /-- Whether a move that leaves the memory is an error by itself. -/
  boundsCheck : Bool := false
  /-- How many instructions have been executed. -/
  steps : Nat := 0
deriving DecidableEq, Repr

namespace Host

/-- Makes a program ready to run. -/
def reset (h : Host) (p : Program) : Except RunError Host :=
  p.load.map fun tape => { h with tape, boundsCheck := p.boundsCheck, steps := 0 }

/-- The machine at the first instruction, with the tape and the count that the host has. -/
def machine (h : Host) (streams : Streams) : Machine :=
  { tape := h.tape, streams, steps := h.steps }

/-- Runs a program within `fuel` steps: what the run leaves behind, and the host afterwards. -/
def run (h : Host) (p : Program) (fuel : Nat) (streams : Streams) : Option (RunResult × Host) :=
  match h.reset p with
  | .error e => some ({ outcome := .error e, tape := h.tape, streams }, h)
  | .ok h =>
    (Machine.runFor { p with boundsCheck := h.boundsCheck } h.limit fuel (h.machine streams)).map
      fun (outcome, m) =>
        (Program.conclude outcome m, { h with tape := m.tape, steps := m.steps })

theorem reset_of_load {p : Program} {tape : Tape} (hload : p.load = .ok tape) (h : Host) :
    h.reset p = .ok { h with tape, boundsCheck := p.boundsCheck, steps := 0 } := by
  rw [reset, hload]
  rfl

/-- Of what the host has run before nothing is left in a run but its limit. -/
theorem run_of_load {p : Program} {tape : Tape} (hload : p.load = .ok tape) (h : Host)
    (fuel : Nat) (streams : Streams) :
    h.run p fuel streams
      = (Machine.runFor p h.limit fuel { tape, streams }).map fun (outcome, m) =>
          (Program.conclude outcome m,
            { limit := h.limit, tape := m.tape, boundsCheck := p.boundsCheck,
              steps := m.steps }) := by
  rw [run, reset_of_load hload]
  rfl

end Host

end Brainfuck
