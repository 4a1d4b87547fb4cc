import Brainfuck.Proofs.Machine.Stream

set_option autoImplicit false

/-! # Operations in closed form

To read or to write a byte, calls are made until one is not interrupted. How many these are and what
becomes of the last one is settled by the schedule alone (`Schedule.settle`). So each operation is
an equation without recursion, from which one sees what the operation does not look at: the record
of the calls, the schedules of the other operations and, unless a read call goes through, the
input. -/

namespace Brainfuck

namespace Schedule

/-- The texts of the interruptions before the first call that is not interrupted, the fault of this
    call and the schedule after it. -/
def settle : Schedule → List String × Option Fault × Schedule
  | [] => ([], none, [])
  | (n + 1, fault) :: later => ([], none, (n, fault) :: later)
  | (0, .interrupted text) :: later => (text :: (settle later).1, (settle later).2)
  | (0, .zero) :: later => ([], some .zero, later)
  | (0, .error text) :: later => ([], some (.error text), later)

end Schedule

/-- The two kinds of calls that are made again when they are interrupted. -/
inductive Transfer where
  | read
  | write
deriving DecidableEq, Repr

namespace Call

def isOf : Transfer → Call → Bool
  | .read => isRead
  | .write => isWrite

end Call

namespace Streams

def faults (s : Streams) : Transfer → Schedule
  | .read => s.readFaults
  | .write => s.writeFaults

def withFaults (s : Streams) (k : Transfer) (faults : Schedule) : Streams :=
  match k with
  | .read => { s with readFaults := faults }
  | .write => { s with writeFaults := faults }

def withCalls (s : Streams) (calls : List Call) : Streams := { s with calls }

/-- How many calls of one kind have been made. -/
def count (s : Streams) (k : Transfer) : Nat := s.calls.countP (Call.isOf k)

@[simp] theorem calls_withFaults (s : Streams) (k : Transfer) (faults : Schedule) :
    (s.withFaults k faults).calls = s.calls := by
  cases k <;> rfl

@[simp] theorem faults_withFaults (s : Streams) (k : Transfer) (faults : Schedule) :
    (s.withFaults k faults).faults k = faults := by
  cases k <;> rfl

@[simp] theorem withFaults_withFaults (s : Streams) (k : Transfer) (faults faults' : Schedule) :
    (s.withFaults k faults).withFaults k faults' = s.withFaults k faults' := by
  cases k <;> rfl

@[simp] theorem withFaults_faults (s : Streams) (k : Transfer) :
    s.withFaults k (s.faults k) = s := by
  cases k <;> rfl

/-- The streams after calls that were interrupted and a last one, as the schedule has settled
    them. -/
def attempted (s : Streams) (k : Transfer) (call : Option Fault → Call)
    (settled : List String × Option Fault × Schedule) : Streams :=
  (s.withFaults k settled.2.2).withCalls (call settled.2.1 ::
    ((settled.1.map fun text => call (some (.interrupted text))).reverse ++ s.calls))

/-- One more interruption before the others. -/
theorem attempted_record (s : Streams) (k : Transfer) (call : Option Fault → Call) (text : String)
    (settled : List String × Option Fault × Schedule) :
    (s.record (call (some (.interrupted text)))).attempted k call settled
      = s.attempted k call (text :: settled.1, settled.2) := by
  cases k <;> simp [attempted, record, withFaults, withCalls]

theorem countP_interruptions {k : Transfer} {call : Option Fault → Call}
    (h : ∀ fault, (call fault).isOf k = true) (texts : List String) (calls : List Call) :
    ((texts.map fun text => call (some (.interrupted text))).reverse ++ calls).countP
      (Call.isOf k) = texts.length + calls.countP (Call.isOf k) := by
  rw [List.countP_append, List.countP_reverse, List.countP_map, List.countP_eq_length.2]
  intro text _
  exact h _

theorem count_attempted {s : Streams} {k : Transfer} {call : Option Fault → Call}
    (h : ∀ fault, (call fault).isOf k = true) (settled : List String × Option Fault × Schedule) :
    (s.attempted k call settled).count k = s.count k + settled.1.length + 1 := by
  simp only [count, attempted, withCalls, List.countP_cons, countP_interruptions h, h, if_true]
  omega

theorem count_attempted_of_not {s : Streams} {k k' : Transfer} {call : Option Fault → Call}
    (h : ∀ fault, (call fault).isOf k' = false)
    (settled : List String × Option Fault × Schedule) :
    (s.attempted k call settled).count k' = s.count k' := by
  have hinterrupted : (settled.1.map fun text => call (some (.interrupted text))).countP
      (Call.isOf k') = 0 := by
    rw [List.countP_map, List.countP_eq_zero]
    intro text _
    simp [h]
  simp [count, attempted, withCalls, h, hinterrupted]

theorem consumed_attempted {s : Streams} {k : Transfer} {call : Option Fault → Call}
    (h : ∀ text, (call (some (.interrupted text))).taken? = none)
    (settled : List String × Option Fault × Schedule) :
    (s.attempted k call settled).consumed
      = s.consumed + (call settled.2.1).taken?.toList.length := by
  have hinterrupted : (settled.1.map fun text => call (some (.interrupted text))).filterMap
      Call.taken? = [] := by
    simp [h]
  rcases hlast : (call settled.2.1).taken? with - | b
  · simp [consumed, attempted, withCalls, hlast, hinterrupted]
  · simp [consumed, attempted, withCalls, hlast, hinterrupted]

/-- The operation adds to the record of the calls without looking at it. -/
def Records {α : Type} (op : Streams → α × Streams) : Prop :=
  ∀ s, ∃ made, ∀ calls, op (s.withCalls calls) = ((op s).1, (op s).2.withCalls (made ++ calls))

/-- The operation makes no calls of this kind and does not look at their schedule. -/
def Ignores {α : Type} (k : Transfer) (op : Streams → α × Streams) : Prop :=
  ∀ s, (op s).2.count k = s.count k ∧
    ∀ faults, op (s.withFaults k faults) = ((op s).1, (op s).2.withFaults k faults)

/-! ## Flushing -/

theorem records_flush : Records flush := by
  intro s
  refine ⟨[.flush s.flushFaults.next.1], ?_⟩
  intro calls
  rw [flush_eq, flush_eq]
  rfl

theorem ignores_flush (k : Transfer) : Ignores k flush := by
  intro s
  rcases k with - | -
  all_goals
    refine ⟨?_, ?_⟩
    · rw [flush_eq]
      rfl
    · intro faults
      rw [flush_eq, flush_eq]
      rfl

/-! ## Reading -/

/-- The byte that a read call with this fault takes from the input. -/
def received (input : List UInt8) : Option Fault → Option UInt8
  | none => input.head?
  | some _ => none

/-- What a read call with this fault leaves of the input. -/
def remaining (input : List UInt8) : Option Fault → List UInt8
  | none => input.tail
  | some _ => input

/-- A read call with this fault. -/
def readCall (input : List UInt8) (fault : Option Fault) : Call :=
  .read fault (received input fault)

theorem take_eq (s : Streams) :
    s.take = (s.input.head?,
      { s with input := s.input.tail }.record (.read none s.input.head?)) := by
  obtain ⟨input, _, _, _, _⟩ := s
  rcases input with - | ⟨b, rest⟩ <;> rfl

theorem readUnder_eq (s : Streams) (faults : Schedule) :
    s.readUnder faults
      = ((flushOutcome faults.settle.2.1).map fun _ => received s.input faults.settle.2.1,
        { s with input := remaining s.input faults.settle.2.1 }.attempted .read
          (readCall s.input) faults.settle) := by
  induction faults generalizing s with
  | nil =>
      rw [readUnder, take_eq]
      rfl
  | cons head later ih =>
      obtain ⟨n, fault⟩ := head
      rcases n with - | n
      · rcases fault with text | text | -
        · rfl
        · rw [readUnder, ih]
          have hrecord := attempted_record
            { s with input := remaining s.input (Schedule.settle later).2.1 } .read
            (readCall s.input) text (Schedule.settle later)
          exact congrArg (Prod.mk _) hrecord
        · rfl
      · rw [readUnder, take_eq]
        rfl

/-- Reading asks the schedule of the reads which call decides, and only this call can take a
    byte. -/
theorem read_eq (s : Streams) :
    s.read
      = ((flushOutcome s.readFaults.settle.2.1).map fun _ =>
          received s.input s.readFaults.settle.2.1,
        { s with input := remaining s.input s.readFaults.settle.2.1 }.attempted .read
          (readCall s.input) s.readFaults.settle) :=
  readUnder_eq s s.readFaults

theorem records_read : Records read := by
  intro s
  refine ⟨readCall s.input s.readFaults.settle.2.1 :: (s.readFaults.settle.1.map fun text =>
    readCall s.input (some (.interrupted text))).reverse, ?_⟩
  intro calls
  rw [read_eq, read_eq]
  rfl

theorem ignores_read : Ignores .write read := by
  intro s
  refine ⟨?_, ?_⟩
  · rw [read_eq]
    exact count_attempted_of_not (fun _ => rfl) _
  · intro faults
    rw [read_eq, read_eq]
    rfl

/-! ## Writing -/

/-- How a write call with this fault ends. -/
def writeOutcome : Option Fault → Except StreamError Unit
  | none => .ok ()
  | some .zero => .error .wroteNothing
  | some (.error text) | some (.interrupted text) => .error (.failed text)

theorem writeUnder_eq (s : Streams) (b : UInt8) (faults : Schedule) :
    s.writeUnder b faults
      = (writeOutcome faults.settle.2.1, s.attempted .write (.write · b) faults.settle) := by
  induction faults generalizing s with
  | nil => rfl
  | cons head later ih =>
      obtain ⟨n, fault⟩ := head
      rcases n with - | n
      · rcases fault with text | text | -
        · rfl
        · rw [writeUnder, ih]
          have hrecord := attempted_record s .write (.write · b) text (Schedule.settle later)
          exact congrArg (Prod.mk _) hrecord
        · rfl
      · rfl

theorem write_eq (s : Streams) (b : UInt8) :
    s.write b = (writeOutcome s.writeFaults.settle.2.1,
      s.attempted .write (.write · b) s.writeFaults.settle) :=
  writeUnder_eq s b s.writeFaults

theorem records_write (b : UInt8) : Records (write · b) := by
  intro s
  refine ⟨.write s.writeFaults.settle.2.1 b :: (s.writeFaults.settle.1.map fun text =>
    Call.write (some (.interrupted text)) b).reverse, ?_⟩
  intro calls
  simp only [write_eq]
  rfl

theorem ignores_write (b : UInt8) : Ignores .read (write · b) := by
  intro s
  refine ⟨?_, ?_⟩
  · simp only [write_eq]
    exact count_attempted_of_not (fun _ => rfl) _
  · intro faults
    simp only [write_eq]
    rfl

end Streams

end Brainfuck
