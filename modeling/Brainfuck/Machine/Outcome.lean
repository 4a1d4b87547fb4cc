import Brainfuck.Machine.Step

set_option autoImplicit false

/-! # Runs of a program

A run gets a new tape, executes steps until the program ends, and flushes the output once more,
also after an error; if this flush fails, its error is the outcome. Since a program need not end,
the number of steps that may be looked at is bounded by fuel, and a run that has not ended by then
has no result. More fuel never changes a result. -/

namespace Brainfuck

namespace Machine

/-- Executes at most `fuel` steps; `none` if the program has not ended by then. -/
def runFor (p : Program) (limit : Option Nat) :
    (fuel : Nat) → Machine → Option (Except RunError Unit × Machine)
  | 0, _ => none
  | fuel + 1, m =>
    match m.step p limit with
    | .next m => runFor p limit fuel m
    | .done outcome m => some (outcome, m)

/-- More fuel does not change how a run ends. -/
theorem runFor_add {p : Program} {limit : Option Nat} {fuel : Nat} {m : Machine}
    {r : Except RunError Unit × Machine} (h : runFor p limit fuel m = some r) (more : Nat) :
    runFor p limit (fuel + more) m = some r := by
  induction fuel generalizing m with
  | zero => simp [runFor] at h
  | succ fuel ih =>
    rw [Nat.add_right_comm, runFor]
    rw [runFor] at h
    split
    · next m' hstep =>
      rw [hstep] at h
      exact ih h
    · next outcome m' hstep =>
      rw [hstep] at h
      exact h

/-- The machine after `k` instructions; `none` if the program ends before. -/
def after? (p : Program) (limit : Option Nat) : (k : Nat) → Machine → Option Machine
  | 0, m => some m
  | k + 1, m =>
    match m.step p limit with
    | .next m => after? p limit k m
    | .done .. => none

/-- A run may be looked at from any instruction on. -/
theorem runFor_after? {p : Program} {limit : Option Nat} {k : Nat} {m m' : Machine}
    (h : after? p limit k m = some m') (fuel : Nat) :
    runFor p limit (k + fuel) m = runFor p limit fuel m' := by
  induction k generalizing m with
  | zero =>
    cases h
    rw [Nat.zero_add]
  | succ k ih =>
    rw [Nat.add_right_comm, runFor]
    rw [after?] at h
    split
    · next m₁ hstep =>
      rw [hstep] at h
      exact ih h
    · next hstep =>
      rw [hstep] at h
      contradiction

end Machine

/-- What a run leaves behind. -/
structure RunResult where
  outcome : Except RunError Unit
  tape : Tape
  streams : Streams

namespace Program

/-- The tape on which a program starts. -/
def load (p : Program) : Except RunError Tape :=
  match Tape.blank? p.memorySize p.pointerStart with
  | some tape => .ok tape
  | none => .error (.memoryAllocation p.memorySize.toNat)

/-- The last flush of a run. -/
def conclude (outcome : Except RunError Unit) (m : Machine) : RunResult :=
  match m.streams.flush with
  | (.ok (), streams) => { outcome, tape := m.tape, streams }
  | (.error e, streams) => { outcome := .error (.stream e), tape := m.tape, streams }

/-- Runs a program within `fuel` steps. If there is no room for its memory, the tape stays what it
    was before and the streams are not touched. -/
def run (p : Program) (limit : Option Nat) (fuel : Nat) (before : Tape) (streams : Streams) :
    Option RunResult :=
  match p.load with
  | .error e => some { outcome := .error e, tape := before, streams }
  | .ok tape =>
    (Machine.runFor p limit fuel { tape, streams }).map fun (outcome, m) => conclude outcome m

end Program

end Brainfuck
