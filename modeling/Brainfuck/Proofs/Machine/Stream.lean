import Brainfuck.Machine.Stream

set_option autoImplicit false

/-! # What streams keep

Calls are only ever added to the record of the streams, so that the output grows at its end and
never changes otherwise. No operation brings in faults: streams on which no flush can fail stay
so.

What an operation adds to the record is one call for a flush, and for a byte that is read or written
a call for each time that it is attempted (`Streams.ReadsByte`, `Streams.WritesByte`). -/

namespace Brainfuck

namespace Streams

/-- The second streams come after the first: all calls are still there, and if no flush could fail
    before, none can fail now. -/
structure Continue (s s' : Streams) : Prop where
  calls : s.calls <:+ s'.calls
  flushFaults : s.flushFaults = [] → s'.flushFaults = []

namespace Continue

theorem refl (s : Streams) : Continue s s := ⟨List.suffix_refl _, id⟩

theorem trans {s s₁ s₂ : Streams} (h : Continue s s₁) (h' : Continue s₁ s₂) : Continue s s₂ :=
  ⟨h.calls.trans h'.calls, fun hs => h'.flushFaults (h.flushFaults hs)⟩

/-- One more call. -/
theorem of_calls {s s' : Streams} {c : Call} (hcalls : s'.calls = c :: s.calls)
    (hfaults : s.flushFaults = [] → s'.flushFaults = []) : Continue s s' := by
  refine ⟨?_, hfaults⟩
  rw [hcalls]
  exact List.suffix_cons c s.calls

theorem output {s s' : Streams} (h : Continue s s') : s.output <+: s'.output :=
  (List.reverse_prefix.2 h.calls).filterMap _

end Continue

theorem continue_record (s : Streams) (c : Call) : Continue s (s.record c) := .of_calls rfl id

theorem continue_take (s : Streams) : Continue s s.take.2 := by
  unfold take
  split
  · exact .of_calls rfl id
  · exact .of_calls rfl id

theorem continue_readUnder (s : Streams) (faults : Schedule) :
    Continue s (s.readUnder faults).2 := by
  induction faults generalizing s with
  | nil =>
      have h := continue_take { s with readFaults := [] }
      exact ⟨h.calls, h.flushFaults⟩
  | cons head later ih =>
      obtain ⟨n, fault⟩ := head
      cases n with
      | succ n =>
          have h := continue_take { s with readFaults := (n, fault) :: later }
          exact ⟨h.calls, h.flushFaults⟩
      | zero =>
          cases fault with
          | interrupted text =>
              exact (continue_record s (.read (some (.interrupted text)) none)).trans (ih _)
          | zero => exact .of_calls rfl id
          | error text => exact .of_calls rfl id

theorem continue_read (s : Streams) : Continue s s.read.2 := continue_readUnder s _

theorem continue_writeUnder (s : Streams) (b : UInt8) (faults : Schedule) :
    Continue s (s.writeUnder b faults).2 := by
  induction faults generalizing s with
  | nil => exact .of_calls rfl id
  | cons head later ih =>
      obtain ⟨n, fault⟩ := head
      cases n with
      | succ n => exact .of_calls rfl id
      | zero =>
          cases fault with
          | interrupted text =>
              exact (continue_record s (.write (some (.interrupted text)) b)).trans (ih _)
          | zero => exact .of_calls rfl id
          | error text => exact .of_calls rfl id

theorem continue_write (s : Streams) (b : UInt8) : Continue s (s.write b).2 :=
  continue_writeUnder s b _

/-- How a flush call with this fault ends. -/
def flushOutcome : Option Fault → Except StreamError Unit
  | some (.error text) | some (.interrupted text) => .error (.failed text)
  | some .zero | none => .ok ()

theorem flush_eq (s : Streams) :
    s.flush = (flushOutcome s.flushFaults.next.1,
      { s with flushFaults := s.flushFaults.next.2 }.record (.flush s.flushFaults.next.1)) := by
  unfold flush
  rcases s.flushFaults.next with ⟨_ | _ | _ | _, later⟩ <;> rfl

theorem snd_flush (s : Streams) :
    s.flush.2 = { s with flushFaults := s.flushFaults.next.2 }.record
      (.flush s.flushFaults.next.1) := by
  rw [flush_eq]

theorem continue_flush (s : Streams) : Continue s s.flush.2 := by
  rw [snd_flush]
  refine .of_calls rfl ?_
  intro hfaults
  show s.flushFaults.next.2 = []
  rw [hfaults]
  rfl

theorem fst_flush {s : Streams} (h : s.flushFaults = []) : s.flush.1 = .ok () := by
  rw [flush_eq, h]
  rfl

/-- A flush writes nothing. -/
theorem output_flush (s : Streams) : s.flush.2.output = s.output := by
  rw [snd_flush]
  simp [output, trace, record, Call.written?]

/-! ## The calls of an operation -/

/-- How the read calls for one byte go, with the input before them, their result and what they leave
    of the input: after an interruption the call is made again, and the first call that is not
    interrupted decides. -/
inductive ReadsByte (input : List UInt8) :
    List Call → Except StreamError (Option UInt8) → List UInt8 → Prop
  | takes : ReadsByte input [.read none input.head?] (.ok input.head?) input.tail
  | cutShort : ReadsByte input [.read (some .zero) none] (.ok none) input
  | fails (text : String) :
      ReadsByte input [.read (some (.error text)) none] (.error (.failed text)) input
  | again (text : String) {calls : List Call} {result : Except StreamError (Option UInt8)}
      {rest : List UInt8} (h : ReadsByte input calls result rest) :
      ReadsByte input (.read (some (.interrupted text)) none :: calls) result rest

/-- How the write calls for one byte go, with their result. -/
inductive WritesByte (b : UInt8) : List Call → Except StreamError Unit → Prop
  | goesThrough : WritesByte b [.write none b] (.ok ())
  | takesNothing : WritesByte b [.write (some .zero) b] (.error .wroteNothing)
  | fails (text : String) : WritesByte b [.write (some (.error text)) b] (.error (.failed text))
  | again (text : String) {calls : List Call} {result : Except StreamError Unit}
      (h : WritesByte b calls result) :
      WritesByte b (.write (some (.interrupted text)) b :: calls) result

theorem trace_record (s : Streams) (c : Call) : (s.record c).trace = s.trace ++ [c] := by
  simp [trace, record]

theorem flush_calls (s : Streams) :
    ∃ fault, s.flush.1 = flushOutcome fault ∧ s.flush.2.trace = s.trace ++ [.flush fault] ∧
      s.flush.2.input = s.input := by
  rw [flush_eq]
  refine ⟨s.flushFaults.next.1, rfl, ?_, rfl⟩
  rw [trace_record]
  rfl

theorem take_calls (s : Streams) :
    ReadsByte s.input [.read none s.input.head?] (.ok s.take.1) s.take.2.input ∧
      s.take.2.trace = s.trace ++ [.read none s.input.head?] := by
  have htakes : ReadsByte s.input _ _ _ := .takes
  unfold take
  cases hinput : s.input with
  | nil =>
      rw [hinput] at htakes
      refine ⟨?_, trace_record s _⟩
      rw [record, hinput]
      exact htakes
  | cons b rest =>
      rw [hinput] at htakes
      exact ⟨htakes, trace_record { s with input := rest } _⟩

theorem readUnder_calls (s : Streams) (faults : Schedule) :
    ∃ calls, ReadsByte s.input calls (s.readUnder faults).1 (s.readUnder faults).2.input ∧
      (s.readUnder faults).2.trace = s.trace ++ calls := by
  induction faults generalizing s with
  | nil => exact ⟨_, take_calls { s with readFaults := [] }⟩
  | cons head later ih =>
      obtain ⟨n, fault⟩ := head
      cases n with
      | succ n => exact ⟨_, take_calls { s with readFaults := (n, fault) :: later }⟩
      | zero =>
          cases fault with
          | interrupted text =>
              obtain ⟨calls, hreads, htrace⟩ :=
                ih (s.record (.read (some (.interrupted text)) none))
              refine ⟨.read (some (.interrupted text)) none :: calls, .again text hreads, ?_⟩
              rw [readUnder, htrace, trace_record, List.append_assoc]
              rfl
          | zero => exact ⟨_, .cutShort, trace_record { s with readFaults := later } _⟩
          | error text => exact ⟨_, .fails text, trace_record { s with readFaults := later } _⟩

theorem read_calls (s : Streams) :
    ∃ calls, ReadsByte s.input calls s.read.1 s.read.2.input ∧
      s.read.2.trace = s.trace ++ calls :=
  readUnder_calls s s.readFaults

theorem writeUnder_calls (s : Streams) (b : UInt8) (faults : Schedule) :
    ∃ calls, WritesByte b calls (s.writeUnder b faults).1 ∧
      (s.writeUnder b faults).2.trace = s.trace ++ calls := by
  induction faults generalizing s with
  | nil => exact ⟨_, .goesThrough, trace_record { s with writeFaults := [] } _⟩
  | cons head later ih =>
      obtain ⟨n, fault⟩ := head
      cases n with
      | succ n =>
          exact ⟨_, .goesThrough, trace_record { s with writeFaults := (n, fault) :: later } _⟩
      | zero =>
          cases fault with
          | interrupted text =>
              obtain ⟨calls, hwrites, htrace⟩ :=
                ih (s.record (.write (some (.interrupted text)) b))
              refine ⟨.write (some (.interrupted text)) b :: calls, .again text hwrites, ?_⟩
              rw [writeUnder, htrace, trace_record, List.append_assoc]
              rfl
          | zero => exact ⟨_, .takesNothing, trace_record { s with writeFaults := later } _⟩
          | error text => exact ⟨_, .fails text, trace_record { s with writeFaults := later } _⟩

theorem write_calls (s : Streams) (b : UInt8) :
    ∃ calls, WritesByte b calls (s.write b).1 ∧ (s.write b).2.trace = s.trace ++ calls :=
  writeUnder_calls s b s.writeFaults

theorem ReadsByte.isRead {input rest : List UInt8} {calls : List Call}
    {result : Except StreamError (Option UInt8)} (h : ReadsByte input calls result rest) :
    ∀ c ∈ calls, c.isRead = true := by
  induction h with
  | takes => simp [Call.isRead]
  | cutShort => simp [Call.isRead]
  | fails text => simp [Call.isRead]
  | again text h ih => simpa [Call.isRead] using ih

theorem WritesByte.isWrite {b : UInt8} {calls : List Call} {result : Except StreamError Unit}
    (h : WritesByte b calls result) : ∀ c ∈ calls, c.isWrite = true := by
  induction h with
  | goesThrough => simp [Call.isWrite]
  | takesNothing => simp [Call.isWrite]
  | fails text => simp [Call.isWrite]
  | again text h ih => simpa [Call.isWrite] using ih

/-- The byte is in the output if the write succeeds, and only then. -/
theorem WritesByte.written {b : UInt8} {calls : List Call} {result : Except StreamError Unit}
    (h : WritesByte b calls result) :
    calls.filterMap Call.written? = if result.isOk then [b] else [] := by
  induction h with
  | goesThrough => rfl
  | takesNothing => rfl
  | fails text => rfl
  | again text h ih => rw [List.filterMap_cons_none rfl, ih]

end Streams

end Brainfuck
