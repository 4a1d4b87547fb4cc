import Brainfuck.Structured.LoopTree
import Brainfuck.Machine.Stream
import Brainfuck.Machine.Tape

set_option autoImplicit false

/-! # The meaning of a loop tree

A source executed as it is read, one command after the other and without any code: a loop runs its
body as long as the cell under the pointer is not zero. Whatever looks at that cell traps if the
pointer is at none. At the end, also after a trap, the output is flushed. -/

namespace Brainfuck

/-- Why an execution stops before its end. -/
inductive Trap where
  /-- The pointer is at no cell. -/
  | pointer (pointer : Int64) (cells : Nat)
  /-- A stream failed. -/
  | stream (cause : StreamError)
deriving DecidableEq, Repr

/-- What commands act on. -/
structure Situation where
  tape : Tape
  streams : Streams
deriving DecidableEq, Repr

namespace Situation

/-- The trap of a pointer that is at no cell. -/
def outOfBounds (s : Situation) : Trap := .pointer s.tape.pointer s.tape.cells.size

/-- Replaces the cell under the pointer. -/
def update (s : Situation) (f : UInt8 → UInt8) : Except Trap Unit × Situation :=
  match s.tape.index? with
  | none => (.error s.outOfBounds, s)
  | some i => (.ok (), { s with tape := s.tape.set i (f (s.tape.get i)) })

end Situation

/-- Does an action once. -/
def Action.perform (s : Situation) : Action → Except Trap Unit × Situation
  | increment => s.update (· + 1)
  | decrement => s.update (· - 1)
  | moveLeft => (.ok (), { s with tape.pointer := s.tape.pointer - 1 })
  | moveRight => (.ok (), { s with tape.pointer := s.tape.pointer + 1 })
  | write =>
    match s.tape.index? with
    | none => (.error s.outOfBounds, s)
    | some i =>
      match s.streams.write (s.tape.get i) with
      | (.ok (), streams) => (.ok (), { s with streams })
      | (.error e, streams) => (.error (.stream e), { s with streams })
  | read =>
    match s.streams.flush with
    | (.error e, streams) => (.error (.stream e), { s with streams })
    | (.ok (), streams) =>
      match streams.read with
      | (.error e, streams) => (.error (.stream e), { s with streams })
      | (.ok byte, streams) => { s with streams }.update fun _ => byte.getD 255

namespace LoopTree

/-- Executes a tree within `fuel` actions and tests; `none` if it has not ended by then. -/
def exec : (fuel : Nat) → LoopTree Action → Situation → Option (Except Trap Unit × Situation)
  | 0, _, _ => none
  | _ + 1, done, s => some (.ok (), s)
  | fuel + 1, leaf a rest, s =>
    match a.perform s with
    | (.ok (), s) => rest.exec fuel s
    | (.error e, s) => some (.error e, s)
  | fuel + 1, loop body rest, s =>
    match s.tape.index? with
    | none => some (.error s.outOfBounds, s)
    | some i =>
      if s.tape.get i = 0 then rest.exec fuel s
      else
        match body.exec fuel s with
        | some (.ok (), s) => (loop body rest).exec fuel s
        | ended => ended

/-- Flushes the output at the end; a failure of this flush replaces the outcome. -/
def conclude (outcome : Except Trap Unit) (s : Situation) : Except Trap Unit × Situation :=
  match s.streams.flush with
  | (.ok (), streams) => (outcome, { s with streams })
  | (.error e, streams) => (.error (.stream e), { s with streams })

/-- Executes a tree from its beginning to the last flush. -/
def run (fuel : Nat) (t : LoopTree Action) (s : Situation) :
    Option (Except Trap Unit × Situation) :=
  (t.exec fuel s).map fun (outcome, s) => conclude outcome s

/-- More fuel does not change how an execution ends. -/
theorem exec_succ {fuel : Nat} {t : LoopTree Action} {s : Situation}
    {r : Except Trap Unit × Situation} (h : t.exec fuel s = some r) :
    t.exec (fuel + 1) s = some r := by
  induction fuel generalizing t s r with
  | zero => simp [exec] at h
  | succ fuel ih =>
    cases t with
    | done => exact h
    | leaf a rest =>
      obtain ⟨outcome, s', hperform⟩ : ∃ outcome s', a.perform s = (outcome, s') := ⟨_, _, rfl⟩
      simp only [exec, hperform] at h ⊢
      cases outcome with
      | ok => exact ih h
      | error e => exact h
    | loop body rest =>
      simp only [exec] at h ⊢
      cases hindex : s.tape.index? with
      | none =>
        rw [hindex] at h
        exact h
      | some i =>
        rw [hindex] at h
        by_cases hzero : s.tape.get i = 0
        · simp only [hzero, if_true] at h ⊢
          exact ih h
        · simp only [hzero, if_false] at h ⊢
          cases hbody : body.exec fuel s with
          | none =>
            rw [hbody] at h
            contradiction
          | some ended =>
            obtain ⟨outcome, s'⟩ := ended
            rw [hbody] at h
            rw [ih hbody]
            cases outcome with
            | ok => exact ih h
            | error e => exact h

end LoopTree

end Brainfuck
