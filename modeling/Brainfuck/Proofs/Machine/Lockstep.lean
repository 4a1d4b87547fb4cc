import Brainfuck.Proofs.Machine.Discipline
import Brainfuck.Proofs.Machine.Growth

set_option autoImplicit false

/-! # The same run on other streams

A machine learns about its streams only from the results of flushes, reads and writes. If streams
are related in such a way that these results are always the same, and that the streams are related
again afterwards (`Streams.Lockstep`), then runs on them take the same steps and end in the same
way, on the same tape.

Some streams are alike only up to a point. What the first run does to its streams by its end then
has to stay within a condition that, once broken, remains broken. -/

namespace Brainfuck

namespace Streams

/-- Two operations have the same result and leave related streams behind. -/
def Agree {α : Type} (R : Streams → Streams → Prop) (a a' : α × Streams) : Prop :=
  a'.1 = a.1 ∧ R a.2 a'.2

/-- Operations on related streams agree, as long as the first streams satisfy `Q` afterwards. -/
structure Lockstep (Q : Streams → Prop) (R : Streams → Streams → Prop) : Prop where
  /-- What holds later did so before. -/
  before : ∀ {s s₁ : Streams}, s.Continue s₁ → Q s₁ → Q s
  flush : ∀ {s s' : Streams}, R s s' → Q s.flush.2 → Agree R s.flush s'.flush
  read : ∀ {s s' : Streams}, R s s' → Q s.read.2 → Agree R s.read s'.read
  write : ∀ {s s' : Streams} (b : UInt8), R s s' → Q (s.write b).2 →
    Agree R (s.write b) (s'.write b)

end Streams

/-! ## Machines with other streams -/

namespace Machine

variable {p : Program} {limit : Option Nat} {m m' : Machine} {s' : Streams} {op : Op}

def withStreams (m : Machine) (streams : Streams) : Machine := { m with streams }

theorem updateCell_withStreams (m : Machine) (streams : Streams) (f : UInt8 → UInt8) :
    (m.withStreams streams).updateCell f = (m.updateCell f).map (·.withStreams streams) := by
  have htape : (m.withStreams streams).tape = m.tape := rfl
  rw [updateCell_eq, updateCell_eq, htape]
  rcases m.tape.modify? f with - | tape <;> rfl

theorem jump_withStreams (m : Machine) (streams : Streams) (size : Nat) (offset : Int32) :
    (m.withStreams streams).jump size offset
      = (m.jump size offset).map (·.withStreams streams) := by
  have hip : (m.withStreams streams).ip = m.ip := rfl
  simp only [jump, hip]
  split <;> rfl

/-- An instruction that calls no stream does not look at the streams. -/
theorem execute_withStreams (p : Program) (m : Machine) (streams : Streams)
    (h : op.callsStream = false) :
    (m.withStreams streams).execute p op = (m.execute p op).map (·.withStreams streams) := by
  have htape : (m.withStreams streams).tape = m.tape := rfl
  cases op with
  | addCell n => exact updateCell_withStreams m streams (· + n)
  | subCell n => exact updateCell_withStreams m streams (· - n)
  | moveRight n =>
      rw [execute_move rfl, execute_move rfl, htape]
      split <;> rfl
  | moveLeft n =>
      rw [execute_move rfl, execute_move rfl, htape]
      split <;> rfl
  | write => contradiction
  | read => contradiction
  | jump offset => exact jump_withStreams m streams _ offset
  | jumpIfZero offset =>
      rw [execute, execute, jumpIfZero_eq, jumpIfZero_eq, htape]
      rcases m.tape.cell? with - | b
      · rfl
      · by_cases hzero : b = 0
        · simp only [hzero, if_true]
          exact jump_withStreams m streams _ offset
        · simp only [hzero, if_false]
          rfl
  | halt => rfl

/-- What comes after an attempt to read. -/
def afterRead (m : Machine) : Except StreamError (Option UInt8) × Streams → Step
  | (.error e, streams) => (m.withStreams streams).fail (.stream e)
  | (.ok byte, streams) => (m.withStreams streams).updateCell fun _ => byte.getD endOfInput

/-- What comes after the flush of a read. -/
def afterFlush (m : Machine) : Except StreamError Unit × Streams → Step
  | (.error e, streams) => (m.withStreams streams).fail (.stream e)
  | (.ok (), streams) => m.afterRead streams.read

theorem readCell_eq (m : Machine) : m.readCell = m.afterFlush m.streams.flush := by
  unfold readCell
  rcases m.streams.flush with ⟨e | _, flushed⟩
  · rfl
  · simp only [afterFlush]
    rcases flushed.read with ⟨e | byte, streams⟩ <;> rfl

theorem streams_afterWrite (m : Machine) (result : Except StreamError Unit × Streams) :
    (m.afterWrite result).machine.streams = result.2 := by
  rcases result with ⟨e | _, streams⟩ <;> rfl

theorem streams_afterRead (m : Machine) (result : Except StreamError (Option UInt8) × Streams) :
    (m.afterRead result).machine.streams = result.2 := by
  rcases result with ⟨e | byte, streams⟩
  · rfl
  · exact streams_updateCell (m.withStreams streams) fun _ => byte.getD endOfInput

theorem continue_afterFlush (m : Machine) (result : Except StreamError Unit × Streams) :
    result.2.Continue (m.afterFlush result).machine.streams := by
  rcases result with ⟨e | _, flushed⟩
  · exact .refl _
  · simp only [afterFlush, streams_afterRead]
    exact flushed.continue_read

theorem afterWrite_withStreams (m : Machine) (s : Streams)
    {a a' : Except StreamError Unit × Streams} (h : a'.1 = a.1) :
    (m.withStreams s).afterWrite a' = (m.afterWrite a).map (·.withStreams a'.2) := by
  obtain ⟨result, t⟩ := a'
  obtain rfl : result = a.1 := h
  rcases a with ⟨e | _, streams⟩ <;> rfl

theorem afterRead_withStreams (m : Machine) (s : Streams)
    {a a' : Except StreamError (Option UInt8) × Streams} (h : a'.1 = a.1) :
    (m.withStreams s).afterRead a' = (m.afterRead a).map (·.withStreams a'.2) := by
  obtain ⟨result, t⟩ := a'
  obtain rfl : result = a.1 := h
  rcases a with ⟨e | byte, streams⟩
  · rfl
  · exact updateCell_withStreams (m.withStreams streams) t fun _ => byte.getD endOfInput

theorem continue_of_runFor {fuel : Nat} {o : Except RunError Unit}
    (h : runFor p limit fuel m = some (o, m')) : m.streams.Continue m'.streams := by
  have hcontinue := continue_upTo p limit fuel m
  rwa [upTo_of_runFor h] at hcontinue

end Machine

theorem Program.conclude_withStreams (o : Except RunError Unit) (m : Machine) {s : Streams}
    (h : s.flush.1 = m.streams.flush.1) :
    conclude o (m.withStreams s) = { conclude o m with streams := s.flush.2 } := by
  have hstreams : (m.withStreams s).streams = s := rfl
  rw [conclude, conclude, hstreams]
  rcases hflush : s.flush with ⟨result, t⟩
  obtain rfl : result = m.streams.flush.1 := by rw [← h, hflush]
  rcases m.streams.flush with ⟨e | _, flushed⟩ <;> rfl

/-! ## Steps -/

namespace Streams.Lockstep

open Machine

variable {Q : Streams → Prop} {R : Streams → Streams → Prop} {p : Program} {limit : Option Nat}
  {m m' : Machine} {s s' : Streams}

/-- The second step is the first one with other streams, which are related. -/
def Mirrors (R : Streams → Streams → Prop) (step step' : Step) : Prop :=
  ∃ t, R step.machine.streams t ∧ step' = step.map (·.withStreams t)

theorem writeCell (h : Lockstep Q R) (hR : R m.streams s') (hQ : Q m.writeCell.machine.streams) :
    Mirrors R m.writeCell (m.withStreams s').writeCell := by
  have htape : (m.withStreams s').tape = m.tape := rfl
  rw [writeCell_eq] at hQ
  rw [writeCell_eq, writeCell_eq, htape]
  rcases hcell : m.tape.cell? with - | b
  · exact ⟨s', hR, rfl⟩
  · simp only [hcell, streams_afterWrite] at hQ
    obtain ⟨hresult, hwritten⟩ := h.write b hR hQ
    refine ⟨(s'.write b).2, ?_, afterWrite_withStreams m s' hresult⟩
    simp only [streams_afterWrite]
    exact hwritten

theorem afterFlush (h : Lockstep Q R) {a a' : Except StreamError Unit × Streams}
    (hagree : Agree R a a') (hQ : Q (m.afterFlush a).machine.streams) :
    Mirrors R (m.afterFlush a) ((m.withStreams s').afterFlush a') := by
  obtain ⟨result, t⟩ := a'
  obtain ⟨rfl, ht⟩ : result = a.1 ∧ R a.2 t := hagree
  rcases a with ⟨e | _, flushed⟩
  · exact ⟨t, ht, rfl⟩
  · simp only [Machine.afterFlush, streams_afterRead] at hQ
    obtain ⟨hresult, hread⟩ := h.read ht hQ
    refine ⟨t.read.2, ?_, afterRead_withStreams m s' hresult⟩
    simp only [Machine.afterFlush, streams_afterRead]
    exact hread

theorem readCell (h : Lockstep Q R) (hR : R m.streams s') (hQ : Q m.readCell.machine.streams) :
    Mirrors R m.readCell (m.withStreams s').readCell := by
  rw [readCell_eq] at hQ
  rw [readCell_eq, readCell_eq]
  exact h.afterFlush (h.flush hR (h.before (continue_afterFlush m _) hQ)) hQ

theorem execute (h : Lockstep Q R) (hR : R m.streams s') (op : Op)
    (hQ : Q (m.execute p op).machine.streams) :
    Mirrors R (m.execute p op) ((m.withStreams s').execute p op) := by
  by_cases hop : op.callsStream = false
  · refine ⟨s', ?_, execute_withStreams p m s' hop⟩
    rw [streams_execute p m hop]
    exact hR
  · cases op with
    | write => exact h.writeCell hR hQ
    | read => exact h.readCell hR hQ
    | _ => exact absurd rfl hop

theorem step (h : Lockstep Q R) (hR : R m.streams s')
    (hQ : Q (m.step p limit).machine.streams) :
    Mirrors R (m.step p limit) ((m.withStreams s').step p limit) := by
  have hip : (m.withStreams s').ip = m.ip := rfl
  have hsteps : (m.withStreams s').exceeded? limit = m.exceeded? limit := rfl
  rcases hop : p.ops[m.ip]? with - | op
  · simp only [Machine.step, hip, hop]
    exact ⟨s', hR, rfl⟩
  · rcases hlimit : m.exceeded? limit with - | n
    · have hdue : m.Due p limit op := ⟨hop, hlimit⟩
      have hdue' : (m.withStreams s').Due p limit op := hdue
      rw [hdue.step_eq] at hQ
      rw [hdue.step_eq, hdue'.step_eq]
      exact h.execute (m := { m with steps := m.steps + 1 }) hR op hQ
    · simp only [Machine.step, hip, hop, hsteps, hlimit]
      exact ⟨s', hR, rfl⟩

/-! ## Runs -/

/-- A run that ends does so in the same way on related streams. -/
theorem runFor (h : Lockstep Q R) {fuel : Nat} {o : Except RunError Unit} :
    ∀ {m : Machine} {s' : Streams}, Machine.runFor p limit fuel m = some (o, m') → Q m'.streams →
      R m.streams s' →
      ∃ t, R m'.streams t ∧
        Machine.runFor p limit fuel (m.withStreams s') = some (o, m'.withStreams t) := by
  induction fuel with
  | zero =>
      intro m s' hrun hQ hR
      contradiction
  | succ fuel ih =>
      intro m s' hrun hQ hR
      rw [Machine.runFor] at hrun
      rcases hstep : m.step p limit with m₁ | ⟨o₁, m₁⟩
      · rw [hstep] at hrun
        have hQ₁ : Q m₁.streams := h.before (continue_of_runFor hrun) hQ
        obtain ⟨t, ht, hstep'⟩ := h.step hR (by rw [hstep]; exact hQ₁)
        rw [hstep] at ht hstep'
        obtain ⟨t', ht', hrun'⟩ := ih hrun hQ ht
        refine ⟨t', ht', ?_⟩
        rw [Machine.runFor, hstep']
        exact hrun'
      · rw [hstep] at hrun
        cases hrun
        obtain ⟨t, ht, hstep'⟩ := h.step hR (by rw [hstep]; exact hQ)
        rw [hstep] at ht hstep'
        refine ⟨t, ht, ?_⟩
        rw [Machine.runFor, hstep']
        rfl

/-- So does the run of a program, with its last flush. -/
theorem run (h : Lockstep Q R) {fuel : Nat} {before : Tape} {r : RunResult}
    (hrun : p.run limit fuel before s = some r) (hQ : Q r.streams) (hR : R s s') :
    ∃ t, R r.streams t ∧ p.run limit fuel before s' = some { r with streams := t } := by
  rcases hload : p.load with e | tape
  · rw [Program.run, hload] at hrun
    cases hrun
    refine ⟨s', hR, ?_⟩
    rw [Program.run, hload]
  · obtain ⟨o, m, hends, rfl⟩ := (Program.run_eq_some_iff hload).1 hrun
    rw [Program.streams_conclude] at hQ
    obtain ⟨t, ht, hends'⟩ := h.runFor hends (h.before m.streams.continue_flush hQ) hR
    obtain ⟨hresult, hflushed⟩ := h.flush ht hQ
    refine ⟨t.flush.2, ?_, (Program.run_eq_some_iff hload).2 ⟨o, m.withStreams t, hends', ?_⟩⟩
    · rw [Program.streams_conclude]
      exact hflushed
    · exact Program.conclude_withStreams o m hresult

/-- Where nothing is asked of the streams, related ones can change places. -/
theorem flip (h : Lockstep (fun _ => True) R) : Lockstep (fun _ => True) fun s s' => R s' s where
  before := fun _ _ => trivial
  flush := by
    intro s s' hR _
    obtain ⟨hresult, hflushed⟩ := h.flush hR trivial
    exact ⟨hresult.symm, hflushed⟩
  read := by
    intro s s' hR _
    obtain ⟨hresult, hread⟩ := h.read hR trivial
    exact ⟨hresult.symm, hread⟩
  write := by
    intro s s' b hR _
    obtain ⟨hresult, hwritten⟩ := h.write b hR trivial
    exact ⟨hresult.symm, hwritten⟩

/-- Then both programs end, in the same way and on the same tape, or neither does. -/
theorem rel_run (h : Lockstep (fun _ => True) R) (p : Program) (limit : Option Nat) (fuel : Nat)
    (before : Tape) (hR : R s s') :
    Option.Rel (fun r r' => r'.outcome = r.outcome ∧ r'.tape = r.tape ∧ R r.streams r'.streams)
      (p.run limit fuel before s) (p.run limit fuel before s') := by
  rcases hrun : p.run limit fuel before s with - | r
  · rcases hrun' : p.run limit fuel before s' with - | r'
    · exact .none
    · obtain ⟨t, -, hends⟩ := h.flip.run hrun' trivial hR
      rw [hrun] at hends
      contradiction
  · obtain ⟨t, ht, hends⟩ := h.run hrun trivial hR
    rw [hends]
    exact .some ⟨rfl, rfl, ht⟩

end Streams.Lockstep

end Brainfuck
