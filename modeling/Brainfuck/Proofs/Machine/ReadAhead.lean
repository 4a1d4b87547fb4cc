import Brainfuck.Proofs.Machine.Attempts
import Brainfuck.Proofs.Machine.Lockstep

set_option autoImplicit false

/-! # No input is read ahead

The bytes that the reads of a run obtain are those of the input, one after the other, and a run
knows of no others: as long as no read call finds the end of the input, what follows the bytes that
were taken can be exchanged (`Streams.Exchanged`). -/

namespace Brainfuck

namespace Streams

/-! ## What is taken from the input -/

/-- The second streams come after the first, with these bytes taken from the input. -/
structure Takes (bytes : List UInt8) (s s' : Streams) : Prop where
  input : bytes ++ s'.input = s.input
  consumed : s'.consumed = s.consumed + bytes.length

namespace Takes

variable {bytes bytes' : List UInt8} {s s₁ s₂ : Streams}

theorem refl (s : Streams) : Takes [] s s := ⟨rfl, rfl⟩

theorem trans (h : Takes bytes s s₁) (h' : Takes bytes' s₁ s₂) : Takes (bytes ++ bytes') s s₂ := by
  refine ⟨?_, ?_⟩
  · rw [List.append_assoc, h'.input, h.input]
  · rw [h'.consumed, h.consumed, List.length_append, Nat.add_assoc]

theorem input_eq_drop (h : Takes bytes s s₁) {x : List UInt8} (hs : s.input = x.drop s.consumed) :
    s₁.input = x.drop s₁.consumed := by
  rw [h.consumed, ← List.drop_drop, ← hs, ← h.input, List.drop_left]

end Takes

theorem takes_flush (s : Streams) : Takes [] s s.flush.2 := by
  rw [flush_eq]
  exact ⟨rfl, rfl⟩

theorem takes_write (s : Streams) (b : UInt8) : Takes [] s (s.write b).2 := by
  rw [write_eq]
  exact ⟨rfl, consumed_attempted (fun _ => rfl) _⟩

/-- The byte that a read obtains, if it obtains one. -/
def obtained? (s : Streams) : Option UInt8 :=
  match s.read.1 with
  | .ok byte => byte
  | .error _ => none

theorem obtained?_eq (s : Streams) :
    s.obtained? = received s.input s.readFaults.settle.2.1 := by
  rw [obtained?, read_eq]
  rcases s.readFaults.settle.2.1 with - | text | text | - <;> rfl

theorem takes_read (s : Streams) : Takes s.obtained?.toList s s.read.2 := by
  rw [obtained?_eq, read_eq]
  refine ⟨?_, consumed_attempted (fun _ => rfl) _⟩
  rcases s.readFaults.settle.2.1 with - | fault
  · show s.input.head?.toList ++ s.input.tail = s.input
    rcases s.input with - | ⟨b, rest⟩ <;> rfl
  · rfl

theorem Continue.consumed_le {s s' : Streams} (h : Continue s s') : s.consumed ≤ s'.consumed :=
  (h.calls.sublist.filterMap Call.taken?).length_le

/-! ## Another input -/

def withInput (s : Streams) (input : List UInt8) : Streams := { s with input }

theorem flush_withInput (s : Streams) (input : List UInt8) :
    (s.withInput input).flush = (s.flush.1, s.flush.2.withInput input) := by
  rw [flush_eq, flush_eq]
  rfl

theorem write_withInput (s : Streams) (input : List UInt8) (b : UInt8) :
    (s.withInput input).write b = ((s.write b).1, (s.write b).2.withInput input) := by
  rw [write_eq, write_eq]
  rfl

/-- A read looks only at the next byte, and only if one of its calls goes through. -/
theorem read_withInput (s : Streams) {input : List UInt8}
    (h : s.readFaults.settle.2.1 = none → input.head? = s.input.head?) :
    (s.withInput input).read
      = (s.read.1, s.read.2.withInput (input.drop s.obtained?.toList.length)) := by
  have hinput : (s.withInput input).input = input := rfl
  have hfaults : (s.withInput input).readFaults = s.readFaults := rfl
  rw [obtained?_eq, read_eq, read_eq, hinput, hfaults]
  rcases hsettle : s.readFaults.settle with ⟨texts, fault, later⟩
  rcases fault with - | fault
  · have hhead : input.head? = s.input.head? := h (by rw [hsettle])
    have hcall : readCall input = readCall s.input := by
      funext fault
      rcases fault with - | fault
      · exact congrArg (Call.read none) hhead
      · rfl
    have hrest : input.tail = input.drop s.input.head?.toList.length := by
      rw [← hhead]
      rcases input with - | ⟨b, rest⟩ <;> rfl
    simp only [received, remaining, hhead, hcall, hrest]
    rfl
  · rfl

/-- The first streams are those of a run on `x`. The second have `y` in its place as the input, of
    which as much has been taken. -/
structure Exchanged (x y : List UInt8) (s s' : Streams) : Prop where
  input : s.input = x.drop s.consumed
  eq : s' = s.withInput (y.drop s.consumed)

/-- At most `k` bytes have been taken, and no read call has found the end of the input. -/
structure Within (k : Nat) (s : Streams) : Prop where
  consumed : s.consumed ≤ k
  notEnd : Call.read none none ∉ s.calls

theorem Within.before {k : Nat} {s s₁ : Streams} (h : s.Continue s₁) (hwithin : Within k s₁) :
    Within k s :=
  ⟨Nat.le_trans h.consumed_le hwithin.consumed, fun hmem => hwithin.notEnd (h.calls.subset hmem)⟩

namespace Exchanged

variable {x y : List UInt8} {k : Nat} {s s' : Streams}

theorem getElem?_of_take {n : Nat} {b : UInt8} (hxy : x.take k <+: y) (hn : n < k)
    (hb : x[n]? = some b) : y[n]? = some b := by
  obtain ⟨rest, rfl⟩ := hxy
  have hlength : n < x.length := (List.getElem?_eq_some_iff.1 hb).1
  rw [List.getElem?_append_left (by rw [List.length_take]; omega), List.getElem?_take_of_lt hn, hb]

/-- If a read call goes through, there is a byte for it, and the other input has the same one. -/
theorem head?_eq (hxy : x.take k <+: y) (hinput : s.input = x.drop s.consumed)
    (hwithin : Within k s.read.2) (hfault : s.readFaults.settle.2.1 = none) :
    (y.drop s.consumed).head? = s.input.head? := by
  have hobtained : s.obtained? = s.input.head? := by
    rw [obtained?_eq, hfault]
    rfl
  rcases hhead : s.input.head? with - | b
  · refine absurd ?_ hwithin.notEnd
    rw [read_eq]
    simp [attempted, withCalls, readCall, hfault, received, hhead]
  · have hconsumed := hwithin.consumed
    rw [(takes_read s).consumed, hobtained, hhead] at hconsumed
    have hb : x[s.consumed]? = some b := by rw [← List.head?_drop, ← hinput, hhead]
    rw [List.head?_drop]
    exact getElem?_of_take hxy hconsumed hb

theorem read (hxy : x.take k <+: y) (h : Exchanged x y s s') (hwithin : Within k s.read.2) :
    Agree (Exchanged x y) s.read s'.read := by
  obtain ⟨hinput, rfl⟩ := h
  rw [read_withInput s (head?_eq hxy hinput hwithin)]
  refine ⟨rfl, (takes_read s).input_eq_drop hinput, ?_⟩
  rw [(takes_read s).consumed, ← List.drop_drop]

/-- Inputs that agree on the bytes that are taken cannot be told apart. -/
theorem lockstep (hxy : x.take k <+: y) : Lockstep (Within k) (Exchanged x y) where
  before := Within.before
  flush := by
    rintro s s' ⟨hinput, rfl⟩ -
    rw [flush_withInput]
    refine ⟨rfl, (takes_flush s).input_eq_drop hinput, ?_⟩
    rw [(takes_flush s).consumed]
    rfl
  read := read hxy
  write := by
    rintro s s' b ⟨hinput, rfl⟩ -
    rw [write_withInput]
    refine ⟨rfl, (takes_write s b).input_eq_drop hinput, ?_⟩
    rw [(takes_write s b).consumed]
    rfl

end Exchanged

end Streams

/-! ## The bytes of a run -/

namespace Machine

variable {p : Program} {limit : Option Nat} {m m' : Machine} {op : Op}

/-- The byte that the next step obtains, if it executes a read that obtains one. -/
def obtained? (p : Program) (limit : Option Nat) (m : Machine) : Option UInt8 :=
  match m.due? p limit, m.streams.flush with
  | some .read, (.ok (), flushed) => flushed.obtained?
  | _, _ => none

theorem obtained?_of_flush {flushed : Streams} (h : m.Due p limit .read)
    (hflush : m.streams.flush = (.ok (), flushed)) :
    m.obtained? p limit = flushed.obtained? := by
  rw [obtained?, due?_eq_some_iff.2 h, hflush]

theorem Due.obtained?_eq_none (h : m.Due p limit op) (hop : op ≠ .read) :
    m.obtained? p limit = none := by
  rw [obtained?, due?_eq_some_iff.2 h]
  split
  · next hread _ => exact absurd (Option.some.inj hread) hop
  · rfl

theorem takes_writeCell (m : Machine) : m.streams.Takes [] m.writeCell.machine.streams := by
  rw [writeCell_eq]
  rcases m.tape.cell? with - | b
  · exact .refl _
  · simp only [streams_afterWrite]
    exact m.streams.takes_write b

/-- What a read obtains is taken from the input, whether or not there is a cell for it. -/
theorem Due.takes_read (h : m.Due p limit .read) :
    Streams.Takes (m.obtained? p limit).toList m.streams (m.step p limit).machine.streams := by
  have hflushed := m.streams.takes_flush
  rw [h.step_eq, execute, readCell_eq]
  show Streams.Takes _ _ (Machine.afterFlush _ m.streams.flush).machine.streams
  rcases hflush : m.streams.flush with ⟨e | _, flushed⟩
  · rw [hflush] at hflushed
    have hnone : m.obtained? p limit = none := by rw [obtained?, due?_eq_some_iff.2 h, hflush]
    rw [hnone]
    exact hflushed
  · rw [hflush] at hflushed
    rw [obtained?_of_flush h hflush, afterFlush, streams_afterRead]
    exact hflushed.trans flushed.takes_read

/-- No other instruction takes anything. -/
theorem Due.takes (h : m.Due p limit op) :
    Streams.Takes (m.obtained? p limit).toList m.streams (m.step p limit).machine.streams := by
  by_cases hop : op = .read
  · subst hop
    exact h.takes_read
  · rw [h.obtained?_eq_none hop, h.step_eq]
    by_cases hstream : op.callsStream = false
    · rw [streams_execute p _ hstream]
      exact .refl _
    · cases op with
      | write => exact takes_writeCell { m with steps := m.steps + 1 }
      | read => contradiction
      | _ => exact absurd rfl hstream

theorem cell?_of_updateCell {b : UInt8} (h : (m.updateCell fun _ => b) = .next m') :
    m'.tape.cell? = some b := by
  rw [updateCell_eq] at h
  rcases htape : m.tape.modify? (fun _ => b) with - | tape
  · simp [htape, trap, fail] at h
  · simp only [htape, advance, Step.next.injEq] at h
    subst h
    show tape.cell? = some b
    rcases hcell : m.tape.cell? with - | old
    · rw [(Tape.modify?_eq_none_iff _ _).2 ((Tape.cell?_eq_none_iff _).1 hcell)] at htape
      contradiction
    · rw [Tape.cell?_modify? htape, hcell]
      rfl

/-- A read that goes on has stored the byte that it obtained. -/
theorem cell?_of_obtained? {b : UInt8} (hobtained : m.obtained? p limit = some b)
    (hstep : m.step p limit = .next m') : m'.tape.cell? = some b := by
  rw [obtained?] at hobtained
  split at hobtained
  · next flushed hdue hflush =>
    rw [(due?_eq_some_iff.1 hdue).step_eq, execute, readCell_eq] at hstep
    simp only [hflush, afterFlush] at hstep
    rw [Streams.obtained?] at hobtained
    rcases hread : flushed.read with ⟨e | byte, streams⟩
    · simp [hread] at hobtained
    · obtain rfl : byte = some b := by simpa [hread] using hobtained
      simp only [hread, afterRead] at hstep
      exact cell?_of_updateCell hstep
  · contradiction

theorem filterMap_cons_eq {α β : Type} (f : α → Option β) (a : α) (l : List α) :
    (a :: l).filterMap f = (f a).toList ++ l.filterMap f := by
  rcases h : f a with - | b <;> simp [h]

/-- The reads of a run obtain the bytes that it takes from the input, in order. -/
theorem takes_upTo (p : Program) (limit : Option Nat) (k : Nat) (m : Machine) :
    Streams.Takes ((started p limit k m).filterMap (obtained? p limit)) m.streams
      (upTo p limit k m).streams := by
  induction k generalizing m with
  | zero => exact .refl _
  | succ k ih =>
      rcases hdue : m.due? p limit with - | op
      · obtain ⟨o, hstep⟩ := step_of_due?_eq_none hdue
        simp only [upTo, hstep, started_of_due?_eq_none hdue]
        exact .refl _
      · have hdue' := due?_eq_some_iff.1 hdue
        have htakes := hdue'.takes
        rcases hstep : m.step p limit with m₁ | ⟨o, m₁⟩
        · rw [hstep] at htakes
          have hfirst := htakes.trans (ih m₁)
          rw [started_of_next hdue' hstep, filterMap_cons_eq]
          simp only [upTo, hstep]
          exact hfirst
        · rw [hstep] at htakes
          rw [started_of_done hdue' hstep, filterMap_cons_eq, List.filterMap_nil, List.append_nil]
          simp only [upTo, hstep]
          exact htakes

end Machine

namespace Program

/-- A run knows of no byte that it has not taken. If it ends without finding the end of its input,
    it does the same on every input that begins with the bytes it has taken. And the bytes that its
    reads obtain are those of the input, in order; a read that goes on has stored its byte. -/
theorem no_read_ahead (p : Program) (limit : Option Nat) (x : List UInt8)
    (readFaults writeFaults flushFaults : Schedule) :
    (∀ fuel before r y,
      p.run limit fuel before { input := x, readFaults, writeFaults, flushFaults } = some r →
      Call.read none none ∉ r.streams.trace → x.take r.streams.consumed <+: y →
      p.run limit fuel before { input := y, readFaults, writeFaults, flushFaults }
        = some { r with streams := { r.streams with input := y.drop r.streams.consumed } }) ∧
    ∀ (tape : Tape) (k : Nat),
      let start : Machine :=
        { tape, streams := { input := x, readFaults, writeFaults, flushFaults } }
      let bytes := (Machine.started p limit k start).filterMap (Machine.obtained? p limit)
      bytes.length = (Machine.upTo p limit k start).streams.consumed ∧
      (∀ (i : Nat) (b : UInt8), bytes[i]? = some b → x[i]? = some b) ∧
      ∀ m ∈ Machine.started p limit k start, ∀ b m', m.obtained? p limit = some b →
        m.step p limit = .next m' → m'.tape.cell? = some b := by
  refine ⟨?_, ?_⟩
  · intro fuel before r y hrun hend hxy
    have hwithin : r.streams.Within r.streams.consumed :=
      ⟨Nat.le_refl _, fun hmem => hend (List.mem_reverse.2 hmem)⟩
    obtain ⟨t, ht, hrun'⟩ := (Streams.Exchanged.lockstep hxy).run hrun hwithin ⟨rfl, rfl⟩
    rw [ht.eq] at hrun'
    exact hrun'
  · intro tape k start bytes
    have htakes := Machine.takes_upTo p limit k start
    refine ⟨?_, ?_, ?_⟩
    · rw [htakes.consumed]
      exact (Nat.zero_add _).symm
    · intro i b hb
      have hinput : bytes ++ (Machine.upTo p limit k start).streams.input = x := htakes.input
      have hlength : i < bytes.length := (List.getElem?_eq_some_iff.1 hb).1
      rw [← hinput, List.getElem?_append_left hlength, hb]
    · intro m _ b m' hobtained hstep
      exact Machine.cell?_of_obtained? hobtained hstep

/-- Two reads, of which the second takes its byte and finds no cell for it. The input may as well
    end there. -/
theorem no_read_ahead_outside :
    let p : Program := ⟨1, 0, false, #[.read, .moveLeft 1, .read]⟩
    let start : Machine :=
      { tape := ⟨#[0], 0⟩,
        streams := { input := [5, 7, 9], readFaults := [(1, .interrupted "again")] } }
    (∃ r, p.run none 3 .empty start.streams = some r ∧
      Call.read none none ∉ r.streams.trace ∧ [5, 7, 9].take r.streams.consumed <+: [5, 7] ∧
      p.run none 3 .empty { input := [5, 7], readFaults := [(1, .interrupted "again")] }
        = some { r with streams := { r.streams with input := [] } } ∧
      r.outcome = .error (.pointerOutOfBounds (-1) 1 2)) ∧
    ((Machine.started p none 3 start).filterMap (Machine.obtained? p none))[1]? = some 7 ∧
      ([5, 7, 9] : List UInt8)[1]? = some 7 ∧
    ∃ m', start.obtained? p none = some 5 ∧ start.step p none = .next m' ∧
      m'.tape.cell? = some 5 := by
  intro p start
  obtain ⟨hruns, hreads⟩ := no_read_ahead p none [5, 7, 9] [(1, .interrupted "again")] [] []
  obtain ⟨-, hinput, hstores⟩ := hreads ⟨#[0], 0⟩ 3
  refine ⟨⟨_, rfl, by decide, by decide, ?_, rfl⟩, rfl, ?_, _, rfl, rfl, ?_⟩
  · exact hruns 3 .empty _ [5, 7] rfl (by decide) (by decide)
  · exact hinput 1 7 rfl
  · exact hstores start List.mem_cons_self 5 _ rfl rfl

end Program

end Brainfuck
