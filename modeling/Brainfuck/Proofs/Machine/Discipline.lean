import Brainfuck.Proofs.Machine.Step

set_option autoImplicit false

/-! # How a run treats its streams

The calls of a run are those of the instructions that it starts, one after the other, and one flush
at the end. Two instructions make calls. A write makes write calls for the cell under the pointer. A
read makes one flush and, if this goes through, read calls (`Machine.Reads`); only then does it look
at the pointer. So nothing that was written waits for a flush when a read call is made, and the
output is what the writes have written that succeeded. -/

namespace Brainfuck

/-! ## Calls in order -/

namespace Call

def isFlush : Call → Bool
  | flush _ => true
  | _ => false

theorem isFlush_of_isRead {c : Call} (h : c.isRead = true) : c.isFlush = false := by
  cases c with
  | flush fault => contradiction
  | read fault byte => rfl
  | write fault byte => rfl

theorem isFlush_of_isWrite {c : Call} (h : c.isWrite = true) : c.isFlush = false := by
  cases c with
  | flush fault => contradiction
  | read fault byte => rfl
  | write fault byte => rfl

theorem written?_of_isRead {c : Call} (h : c.isRead = true) : c.written? = none := by
  cases c with
  | flush fault => contradiction
  | read fault byte => rfl
  | write fault byte => contradiction

/-- All that was written by these calls has been flushed: the last of them that is not a read is a
    flush that went through. -/
def Flushed (calls : List Call) : Prop :=
  ∃ earlier fault reads, calls = earlier ++ .flush fault :: reads ∧
    Streams.flushOutcome fault = .ok () ∧ ∀ c ∈ reads, c.isRead = true

/-- The calls of one instruction: write calls, or a flush and, if it went through, read calls. -/
inductive Block : List Call → Prop
  | writes {calls : List Call} (h : ∀ c ∈ calls, c.isWrite = true) : Block calls
  | reads {fault : Option Fault} {calls : List Call} (h : ∀ c ∈ calls, c.isRead = true)
      (hflush : calls ≠ [] → Streams.flushOutcome fault = .ok ()) : Block (.flush fault :: calls)

theorem Flushed.append {calls : List Call} (h : Flushed calls) (more : List Call) :
    Flushed (more ++ calls) := by
  obtain ⟨earlier, fault, reads, rfl, hflush, hreads⟩ := h
  exact ⟨more ++ earlier, fault, reads, by rw [List.append_assoc], hflush, hreads⟩

/-- In front of a read call of an instruction stands the flush of this instruction. -/
theorem Block.flushed {calls earlier later : List Call} {c : Call} (h : Block calls)
    (hcalls : calls = earlier ++ c :: later) (hc : c.isRead = true) : Flushed earlier := by
  cases h with
  | writes h =>
      have hwrite := h c (by rw [hcalls]; simp)
      cases c <;> contradiction
  | @reads fault calls h hflush =>
      rcases List.cons_eq_append_iff.1 hcalls with ⟨rfl, hfirst⟩ | ⟨reads, rfl, rfl⟩
      · cases hfirst
        contradiction
      · refine ⟨[], fault, reads, rfl, hflush (by simp), ?_⟩
        intro c' hc'
        exact h c' (List.mem_append_left _ hc')

/-- At every read call of some instructions, all that they wrote before it has been flushed. -/
theorem flushed_of_blocks {blocks : List (List Call)} (h : ∀ calls ∈ blocks, Block calls)
    {earlier later : List Call} {c : Call} (hcalls : blocks.flatten = earlier ++ c :: later)
    (hc : c.isRead = true) : Flushed earlier := by
  induction blocks generalizing earlier with
  | nil => simp at hcalls
  | cons calls blocks ih =>
      rw [List.flatten_cons] at hcalls
      have hblocks : ∀ calls' ∈ blocks, Block calls' := fun calls' h' =>
        h calls' (List.mem_cons_of_mem _ h')
      rcases List.append_eq_append_iff.1 hcalls with ⟨between, rfl, hrest⟩ | ⟨left, hleft, hrest⟩
      · exact (ih hblocks hrest).append calls
      · rcases List.cons_eq_append_iff.1 hrest with ⟨rfl, hfirst⟩ | ⟨left', rfl, -⟩
        · rw [List.append_nil] at hleft
          have hnone : Flushed [] := ih hblocks hfirst
          have hcalls' := hnone.append calls
          rwa [List.append_nil, hleft] at hcalls'
        · exact (h calls List.mem_cons_self).flushed hleft hc

end Call

/-! ## The instructions of a run -/

/-- The machine that a step leads to or ends with. -/
def Step.machine : Step → Machine
  | next m => m
  | done _ m => m

namespace Machine

variable {p : Program} {limit : Option Nat} {m m' : Machine} {op : Op}

/-- The instruction that the next step executes, if it executes one. -/
def due? (p : Program) (limit : Option Nat) (m : Machine) : Option Op :=
  if (m.exceeded? limit).isSome then none else p.ops[m.ip]?

/-- The machines at which the first `k` steps start an instruction, in order. -/
def started (p : Program) (limit : Option Nat) : (k : Nat) → Machine → List Machine
  | 0, _ => []
  | k + 1, m =>
    if (m.due? p limit).isSome then
      m :: match m.step p limit with
        | .next m' => started p limit k m'
        | .done .. => []
    else []

/-- The calls that the next step makes. -/
def made (p : Program) (limit : Option Nat) (m : Machine) : List Call :=
  (m.step p limit).machine.streams.trace.drop m.streams.trace.length

/-- The byte that the next step puts into the output: the cell under the pointer, if the step is a
    write that succeeds. -/
def written? (p : Program) (limit : Option Nat) (m : Machine) : Option UInt8 :=
  match m.due? p limit, m.step p limit with
  | some .write, .next _ => m.tape.cell?
  | _, _ => none

theorem due?_eq_some_iff : m.due? p limit = some op ↔ m.Due p limit op := by
  unfold due? Due
  cases m.exceeded? limit <;> simp

theorem made_eq {calls : List Call}
    (h : (m.step p limit).machine.streams.trace = m.streams.trace ++ calls) :
    m.made p limit = calls := by
  rw [made, h, List.drop_left]

/-- How the read that the next step executes can go: its flush fails, or a read call fails, or only
    then there is no cell for the byte, or it goes on. -/
inductive Reads (p : Program) (limit : Option Nat) (m : Machine) : Prop
  | flushFails {fault : Option Fault} {e : StreamError} {m' : Machine}
      (hflush : Streams.flushOutcome fault = .error e)
      (hmade : m.made p limit = [.flush fault])
      (hstep : m.step p limit = .done (.error (.stream e)) m')
  | readFails {fault : Option Fault} {calls : List Call} {e : StreamError} {m' : Machine}
      (hflush : Streams.flushOutcome fault = .ok ())
      (hread : Streams.ReadsByte m.streams.input calls (.error e) m'.streams.input)
      (hmade : m.made p limit = .flush fault :: calls)
      (hstep : m.step p limit = .done (.error (.stream e)) m')
  | findsNoCell {fault : Option Fault} {calls : List Call} {byte : Option UInt8} {m' : Machine}
      (hflush : Streams.flushOutcome fault = .ok ())
      (hread : Streams.ReadsByte m.streams.input calls (.ok byte) m'.streams.input)
      (hmade : m.made p limit = .flush fault :: calls) (hout : ¬ m.tape.InRange)
      (hstep : m.step p limit
        = .done (.error (.pointerOutOfBounds m.tape.pointer m.tape.cells.size m.ip)) m')
  | goesOn {fault : Option Fault} {calls : List Call} {byte : Option UInt8} {m' : Machine}
      (hflush : Streams.flushOutcome fault = .ok ())
      (hread : Streams.ReadsByte m.streams.input calls (.ok byte) m'.streams.input)
      (hmade : m.made p limit = .flush fault :: calls) (hin : m.tape.InRange)
      (hstep : m.step p limit = .next m')

theorem Due.reads (h : m.Due p limit .read) : m.Reads p limit := by
  obtain ⟨fault, hflush, hflushTrace, hinput⟩ := m.streams.flush_calls
  have hstep := h.step_eq
  rw [execute, readCell] at hstep
  rcases hcall : m.streams.flush with ⟨e | _, flushed⟩
  · rw [hcall] at hflush hflushTrace
    simp only [hcall] at hstep
    exact .flushFails hflush.symm (made_eq (by rw [hstep]; exact hflushTrace)) hstep
  · rw [hcall] at hflush hflushTrace hinput
    obtain ⟨calls, hread, hreadTrace⟩ := flushed.read_calls
    rw [hinput] at hread
    rw [hflushTrace, List.append_assoc] at hreadTrace
    simp only [hcall] at hstep
    rcases htaken : flushed.read with ⟨e | byte, streams⟩
    · rw [htaken] at hread hreadTrace
      simp only [htaken] at hstep
      exact .readFails hflush.symm hread (made_eq (by rw [hstep]; exact hreadTrace)) hstep
    · rw [htaken] at hread hreadTrace
      simp only [htaken, updateCell_eq] at hstep
      by_cases hrange : m.tape.InRange
      · obtain ⟨tape, htape⟩ := hrange.exists_modify? fun _ => byte.getD endOfInput
        simp only [htape] at hstep
        exact .goesOn hflush.symm hread (made_eq (by rw [hstep]; exact hreadTrace)) hrange hstep
      · have hnone : m.tape.modify? (fun _ => byte.getD endOfInput) = none :=
          (Tape.modify?_eq_none_iff _ _).2 ((Tape.index?_eq_none_iff _).2 hrange)
        simp only [hnone] at hstep
        have hmade : m.made p limit = .flush fault :: calls :=
          made_eq (by rw [hstep]; exact hreadTrace)
        exact .findsNoCell hflush.symm hread hmade hrange hstep

/-- How the write that the next step executes can go. -/
inductive Writes (p : Program) (limit : Option Nat) (m : Machine) : Prop
  | findsNoCell {m' : Machine} (hmade : m.made p limit = []) (hcell : m.tape.cell? = none)
      (hstep : m.step p limit
        = .done (.error (.pointerOutOfBounds m.tape.pointer m.tape.cells.size m.ip)) m')
  | fails {b : UInt8} {e : StreamError} {m' : Machine} (hcell : m.tape.cell? = some b)
      (hwrite : Streams.WritesByte b (m.made p limit) (.error e))
      (hstep : m.step p limit = .done (.error (.stream e)) m')
  | goesOn {b : UInt8} {m' : Machine} (hcell : m.tape.cell? = some b)
      (hwrite : Streams.WritesByte b (m.made p limit) (.ok ()))
      (hstep : m.step p limit = .next m')

theorem Due.writes (h : m.Due p limit .write) : m.Writes p limit := by
  have hstep := h.step_eq
  rw [execute, writeCell_eq] at hstep
  cases hcell : m.tape.cell? with
  | none =>
      simp only [hcell] at hstep
      exact .findsNoCell (made_eq (by rw [hstep]; exact (List.append_nil _).symm)) hcell hstep
  | some b =>
      obtain ⟨calls, hwrite, htrace⟩ := m.streams.write_calls b
      simp only [hcell] at hstep
      rcases hcall : m.streams.write b with ⟨e | _, streams⟩
      · rw [hcall] at hwrite htrace hstep
        have hmade : m.made p limit = calls := made_eq (by rw [hstep]; exact htrace)
        exact .fails hcell (hmade ▸ hwrite) hstep
      · rw [hcall] at hwrite htrace hstep
        have hmade : m.made p limit = calls := made_eq (by rw [hstep]; exact htrace)
        exact .goesOn hcell (hmade ▸ hwrite) hstep

theorem streams_updateCell (m : Machine) (f : UInt8 → UInt8) :
    (m.updateCell f).machine.streams = m.streams := by
  rw [updateCell_eq]
  cases m.tape.modify? f <;> rfl

theorem streams_jump (m : Machine) (size : Nat) (offset : Int32) :
    (m.jump size offset).machine.streams = m.streams := by
  simp only [jump]
  split <;> rfl

/-- All other instructions leave the streams alone. -/
theorem streams_execute (p : Program) (m : Machine) (h : op.callsStream = false) :
    (m.execute p op).machine.streams = m.streams := by
  cases op with
  | addCell n => exact streams_updateCell m (· + n)
  | subCell n => exact streams_updateCell m (· - n)
  | moveRight n =>
      rw [execute_move rfl]
      split <;> rfl
  | moveLeft n =>
      rw [execute_move rfl]
      split <;> rfl
  | write => contradiction
  | read => contradiction
  | jump offset => exact streams_jump m _ offset
  | jumpIfZero offset =>
      rw [execute, jumpIfZero_eq]
      cases m.tape.cell? with
      | none => rfl
      | some b =>
          show (if b = 0 then _ else _ : Step).machine.streams = _
          split
          · exact streams_jump m _ offset
          · rfl
  | halt => rfl

theorem Due.made_eq_nil (h : m.Due p limit op) (hop : op.callsStream = false) :
    m.made p limit = [] := by
  refine made_eq ?_
  rw [h.step_eq, streams_execute p _ hop]
  exact (List.append_nil _).symm

/-! ## The calls of any instruction -/

theorem upTo_one (p : Program) (limit : Option Nat) (m : Machine) :
    upTo p limit 1 m = (m.step p limit).machine := by
  rw [upTo]
  cases m.step p limit <;> rfl

theorem trace_step (p : Program) (limit : Option Nat) (m : Machine) :
    (m.step p limit).machine.streams.trace = m.streams.trace ++ m.made p limit := by
  have hcontinue := continue_upTo p limit 1 m
  rw [upTo_one] at hcontinue
  obtain ⟨calls, hcalls⟩ := List.reverse_prefix.2 hcontinue.calls
  have htrace : (m.step p limit).machine.streams.trace = m.streams.trace ++ calls := hcalls.symm
  rw [htrace, made_eq htrace]

/-- The calls of a read, however it goes. -/
theorem Reads.made (h : m.Reads p limit) :
    ∃ fault calls, m.made p limit = .flush fault :: calls ∧ (∀ c ∈ calls, c.isRead = true) ∧
      (calls ≠ [] → Streams.flushOutcome fault = .ok ()) := by
  cases h with
  | @flushFails fault e m' hflush hmade hstep =>
      exact ⟨fault, [], hmade, by simp, fun hne => absurd rfl hne⟩
  | @readFails fault calls e m' hflush hread hmade hstep =>
      exact ⟨fault, calls, hmade, hread.isRead, fun _ => hflush⟩
  | @findsNoCell fault calls byte m' hflush hread hmade hout hstep =>
      exact ⟨fault, calls, hmade, hread.isRead, fun _ => hflush⟩
  | @goesOn fault calls byte m' hflush hread hmade hin hstep =>
      exact ⟨fault, calls, hmade, hread.isRead, fun _ => hflush⟩

theorem Writes.made (h : m.Writes p limit) : ∀ c ∈ m.made p limit, c.isWrite = true := by
  cases h with
  | findsNoCell hmade hcell hstep => simp [hmade]
  | fails hcell hwrite hstep => exact hwrite.isWrite
  | goesOn hcell hwrite hstep => exact hwrite.isWrite

/-- An instruction makes no call, or it is a write or a read. -/
theorem Due.stream_cases (h : m.Due p limit op) :
    (op.callsStream = false ∧ m.made p limit = []) ∨ (op = .write ∧ m.Writes p limit) ∨
      (op = .read ∧ m.Reads p limit) := by
  by_cases hstream : op.callsStream = false
  · exact .inl ⟨hstream, h.made_eq_nil hstream⟩
  · cases op with
    | write => exact .inr (.inl ⟨rfl, h.writes⟩)
    | read => exact .inr (.inr ⟨rfl, h.reads⟩)
    | _ => exact absurd rfl hstream

theorem Due.block (h : m.Due p limit op) : Call.Block (m.made p limit) := by
  rcases h.stream_cases with ⟨-, hmade⟩ | ⟨-, hwrites⟩ | ⟨-, hreads⟩
  · rw [hmade]
    exact .writes (by simp)
  · exact .writes hwrites.made
  · obtain ⟨fault, calls, hmade, hcalls, hflush⟩ := hreads.made
    rw [hmade]
    exact .reads hcalls hflush

/-- Exactly the reads flush, and each of them once. -/
theorem Due.countP_isFlush (h : m.Due p limit op) :
    (m.made p limit).countP Call.isFlush = if op = .read then 1 else 0 := by
  rcases h.stream_cases with ⟨hstream, hmade⟩ | ⟨rfl, hwrites⟩ | ⟨rfl, hreads⟩
  · have hop : op ≠ .read := by
      rintro rfl
      contradiction
    rw [hmade, if_neg hop]
    rfl
  · refine List.countP_eq_zero.2 ?_
    intro c hc
    simp [Call.isFlush_of_isWrite (hwrites.made c hc)]
  · obtain ⟨fault, calls, hmade, hcalls, -⟩ := hreads.made
    have hnone : calls.countP Call.isFlush = 0 := by
      refine List.countP_eq_zero.2 ?_
      intro c hc
      simp [Call.isFlush_of_isRead (hcalls c hc)]
    rw [hmade, List.countP_cons, hnone]
    rfl

/-- What an instruction puts into the output. -/
theorem Due.written (h : m.Due p limit op) :
    (m.made p limit).filterMap Call.written? = (m.written? p limit).toList := by
  have hdue := due?_eq_some_iff.2 h
  rcases h.stream_cases with ⟨hstream, hmade⟩ | ⟨rfl, hwrites⟩ | ⟨rfl, hreads⟩
  · have hnone : m.written? p limit = none := by
      rw [written?, hdue]
      split
      · next hwrite _ =>
        cases hwrite
        contradiction
      · rfl
    rw [hmade, hnone]
    rfl
  · rw [written?, hdue]
    cases hwrites with
    | findsNoCell hmade hcell hstep => rw [hmade, hstep]; rfl
    | fails hcell hwrite hstep => rw [hwrite.written, hstep]; rfl
    | goesOn hcell hwrite hstep => rw [hwrite.written, hstep, hcell]; rfl
  · obtain ⟨fault, calls, hmade, hcalls, -⟩ := hreads.made
    have hnone : calls.filterMap Call.written? = [] :=
      List.filterMap_eq_nil_iff.2 fun c hc => Call.written?_of_isRead (hcalls c hc)
    rw [hmade, List.filterMap_cons_none rfl, hnone, written?, hdue]
    rfl

/-! ## Along a run -/

/-- A step that executes no instruction ends the program and leaves the machine as it is. -/
theorem step_of_due?_eq_none (h : m.due? p limit = none) : ∃ o, m.step p limit = .done o m := by
  rcases step_cases p limit m with ⟨-, hstep⟩ | ⟨n, -, -, -, hstep⟩ | ⟨op, hdue, -⟩
  · exact ⟨_, hstep⟩
  · exact ⟨_, hstep⟩
  · rw [due?_eq_some_iff.2 hdue] at h
    contradiction

theorem started_of_next (hdue : m.Due p limit op) (hstep : m.step p limit = .next m') (k : Nat) :
    started p limit (k + 1) m = m :: started p limit k m' := by
  simp only [started, due?_eq_some_iff.2 hdue, Option.isSome_some, if_true, hstep]

theorem started_of_done {o : Except RunError Unit} (hdue : m.Due p limit op)
    (hstep : m.step p limit = .done o m') (k : Nat) : started p limit (k + 1) m = [m] := by
  simp only [started, due?_eq_some_iff.2 hdue, Option.isSome_some, if_true, hstep]

theorem started_of_due?_eq_none (h : m.due? p limit = none) (k : Nat) :
    started p limit (k + 1) m = [] := by
  simp only [started, h, Option.isSome_none, Bool.false_eq_true, if_false]

theorem exists_due_of_mem_started {k : Nat} (h : m' ∈ started p limit k m) :
    ∃ op, m'.Due p limit op := by
  induction k generalizing m with
  | zero => simp [started] at h
  | succ k ih =>
      cases hdue : m.due? p limit with
      | none =>
          rw [started_of_due?_eq_none hdue] at h
          contradiction
      | some op =>
          have hdue' := due?_eq_some_iff.1 hdue
          cases hstep : m.step p limit with
          | done o m₁ =>
              rw [started_of_done hdue' hstep] at h
              exact ⟨op, List.mem_singleton.1 h ▸ hdue'⟩
          | next m₁ =>
              rw [started_of_next hdue' hstep] at h
              rcases List.mem_cons.1 h with rfl | h
              · exact ⟨op, hdue'⟩
              · exact ih h

/-- The calls of a run are those of its instructions. -/
theorem trace_upTo (p : Program) (limit : Option Nat) (k : Nat) (m : Machine) :
    (upTo p limit k m).streams.trace
      = m.streams.trace ++ (started p limit k m).flatMap (made p limit) := by
  induction k generalizing m with
  | zero => simp [upTo, started]
  | succ k ih =>
      have htrace := trace_step p limit m
      cases hdue : m.due? p limit with
      | none =>
          obtain ⟨o, hstep⟩ := step_of_due?_eq_none hdue
          simp [upTo, hstep, started_of_due?_eq_none hdue]
      | some op =>
          have hdue' := due?_eq_some_iff.1 hdue
          cases hstep : m.step p limit with
          | done o m' =>
              rw [hstep] at htrace
              simp only [upTo, hstep, started_of_done hdue' hstep, List.flatMap_singleton]
              exact htrace
          | next m' =>
              rw [hstep] at htrace
              simp only [upTo, hstep, started_of_next hdue' hstep, List.flatMap_cons, ih]
              rw [← List.append_assoc]
              exact congrArg (· ++ _) htrace

section

variable {ms : List Machine} (hms : ∀ m ∈ ms, ∃ op, m.Due p limit op)
include hms

theorem countP_isFlush_made :
    (ms.flatMap (made p limit)).countP Call.isFlush
      = ms.countP fun m => m.due? p limit = some .read := by
  induction ms with
  | nil => rfl
  | cons m ms ih =>
      obtain ⟨op, hdue⟩ := hms m List.mem_cons_self
      have hrest := ih fun m' h' => hms m' (List.mem_cons_of_mem _ h')
      rw [List.flatMap_cons, List.countP_append, hdue.countP_isFlush, hrest, List.countP_cons,
        due?_eq_some_iff.2 hdue, Nat.add_comm]
      simp

theorem filterMap_written?_made :
    (ms.flatMap (made p limit)).filterMap Call.written? = ms.filterMap (written? p limit) := by
  induction ms with
  | nil => rfl
  | cons m ms ih =>
      obtain ⟨op, hdue⟩ := hms m List.mem_cons_self
      have hrest := ih fun m' h' => hms m' (List.mem_cons_of_mem _ h')
      rw [List.flatMap_cons, List.filterMap_append, hdue.written, hrest, List.filterMap_cons]
      cases m.written? p limit <;> rfl

end

/-- How the first `k` steps of a run from `start` on treat the streams. -/
structure Disciplined (p : Program) (limit : Option Nat) (start : Machine) (k : Nat) : Prop where
  /-- There are no calls but those of the instructions, which follow each other. -/
  trace : (upTo p limit k start).streams.trace
    = start.streams.trace ++ (started p limit k start).flatMap (made p limit)
  reads : ∀ m ∈ started p limit k start, m.Due p limit .read → m.Reads p limit
  /-- Instructions other than reads make at most write calls. -/
  others : ∀ m ∈ started p limit k start, ¬ m.Due p limit .read →
    ∀ c ∈ m.made p limit, c.isWrite = true
  /-- At every read call, all that has been written is flushed. -/
  flushed : ∀ earlier c later,
    (started p limit k start).flatMap (made p limit) = earlier ++ c :: later →
    c.isRead = true → Call.Flushed earlier
  /-- There are as many flushes as reads. -/
  flushes : ((started p limit k start).flatMap (made p limit)).countP Call.isFlush
    = (started p limit k start).countP fun m => m.due? p limit = some .read
  /-- The output is what the writes have written that succeeded. -/
  output : (upTo p limit k start).streams.output
    = start.streams.output ++ (started p limit k start).filterMap (written? p limit)

theorem disciplined (p : Program) (limit : Option Nat) (start : Machine) (k : Nat) :
    Disciplined p limit start k where
  trace := trace_upTo p limit k start
  reads := fun m _ hdue => hdue.reads
  others := by
    intro m hm hread
    obtain ⟨op, hdue⟩ := exists_due_of_mem_started hm
    rcases hdue.stream_cases with ⟨-, hmade⟩ | ⟨-, hwrites⟩ | ⟨rfl, -⟩
    · simp [hmade]
    · exact hwrites.made
    · exact absurd hdue hread
  flushed := by
    intro earlier c later hcalls hc
    rw [List.flatMap_def] at hcalls
    refine Call.flushed_of_blocks ?_ hcalls hc
    intro calls hmem
    obtain ⟨m, hm, rfl⟩ := List.mem_map.1 hmem
    obtain ⟨op, hdue⟩ := exists_due_of_mem_started hm
    exact hdue.block
  flushes := countP_isFlush_made fun _ => exists_due_of_mem_started
  output := by
    rw [Streams.output, Streams.output, trace_upTo, List.filterMap_append,
      filterMap_written?_made fun _ => exists_due_of_mem_started]

end Machine

/-! ## Results -/

namespace Program

/-- Streams in a run. Without room for the memory there are no calls, and the tape stays what it
    was. Otherwise the instructions keep the discipline all along, and one flush follows when they
    have ended, whatever the outcome; if it fails, its error is the outcome of the run. -/
theorem stream_discipline (p : Program) (limit : Option Nat) (before : Tape) (streams : Streams) :
    (∀ e, p.load = .error e → ∀ fuel, p.run limit fuel before streams
      = some { outcome := .error e, tape := before, streams }) ∧
    ∀ tape, p.load = .ok tape →
      (∀ k, Machine.Disciplined p limit { tape, streams } k) ∧
      (∀ fuel, Machine.runFor p limit fuel { tape, streams } = none →
        p.run limit fuel before streams = none) ∧
      ∀ fuel o m, Machine.runFor p limit fuel { tape, streams } = some (o, m) →
        m = Machine.upTo p limit fuel { tape, streams } ∧
        ∃ r fault, p.run limit fuel before streams = some r ∧
          r.streams.trace = m.streams.trace ++ [.flush fault] ∧
          r.streams.trace.countP Call.isFlush = streams.trace.countP Call.isFlush
            + (Machine.started p limit fuel { tape, streams }).countP
              (fun m => m.due? p limit = some .read) + 1 ∧
          r.streams.output = streams.output
            ++ (Machine.started p limit fuel { tape, streams }).filterMap
              (Machine.written? p limit) ∧
          (∀ e, Streams.flushOutcome fault = .error e → r.outcome = .error (.stream e)) ∧
          (Streams.flushOutcome fault = .ok () → r.outcome = o) := by
  refine ⟨?_, ?_⟩
  · intro e hload fuel
    rw [run, hload]
  intro tape hload
  refine ⟨fun k => Machine.disciplined p limit _ k, ?_, ?_⟩
  · intro fuel hgoes
    rw [run, hload]
    exact congrArg (Option.map _) hgoes
  intro fuel o m hends
  have hm := Machine.upTo_of_runFor hends
  have hdisciplined := Machine.disciplined p limit { tape, streams } fuel
  obtain ⟨fault, hflush, htrace, -⟩ := m.streams.flush_calls
  refine ⟨hm.symm, conclude o m, fault, (run_eq_some_iff hload).2 ⟨o, m, hends, rfl⟩,
    ?_, ?_, ?_, ?_, ?_⟩
  · rw [streams_conclude, htrace]
  · rw [streams_conclude, htrace, ← hm, hdisciplined.trace, List.countP_append, List.countP_append,
      hdisciplined.flushes]
    rfl
  · rw [streams_conclude, Streams.output_flush, ← hm, hdisciplined.output]
  · intro e hfails
    exact outcome_conclude_of_flush_fails (hflush.trans hfails)
  · intro hok
    exact outcome_conclude (hflush.trans hok)

/-- A read beyond the memory. It takes its byte at the second call, after a flush of its own, and is
    reported only then; without room for the memory nothing is called. -/
theorem stream_discipline_outside :
    (∃ r, (⟨1, 0, false, #[.addCell 65, .write, .moveRight 3, .read]⟩ : Program).run none 4 .empty
        { input := [7, 8], readFaults := [(0, .interrupted "again")] } = some r ∧
      r.streams.trace = [.write none 65, .flush none, .read (some (.interrupted "again")) none,
        .read none (some 7), .flush none] ∧
      r.streams.trace.countP Call.isFlush = 2 ∧ r.streams.output = [65] ∧
      r.outcome = .error (.pointerOutOfBounds 3 1 3)) ∧
    (⟨9223372036854775808, 0, false, #[.write, .read]⟩ : Program).run none 4 .empty { input := [7] }
      = some { outcome := .error (.memoryAllocation 9223372036854775808), tape := .empty,
               streams := { input := [7] } } := by
  refine ⟨?_, (stream_discipline ⟨9223372036854775808, 0, false, #[.write, .read]⟩ none .empty
    { input := [7] }).1 _ rfl 4⟩
  have hload : (⟨1, 0, false, #[.addCell 65, .write, .moveRight 3, .read]⟩ : Program).load
      = .ok { cells := #[0], pointer := 0 } := load_eq_ok_iff.2 ⟨by decide, by decide⟩
  obtain ⟨-, -, hends⟩ := (stream_discipline
    ⟨1, 0, false, #[.addCell 65, .write, .moveRight 3, .read]⟩ none .empty
    { input := [7, 8], readFaults := [(0, .interrupted "again")] }).2 _ hload
  obtain ⟨-, r, fault, hrun, -, hflushes, houtput, -, -⟩ := hends 4 _ _ rfl
  cases hrun
  exact ⟨_, rfl, rfl, hflushes, houtput, rfl⟩

end Program

end Brainfuck
