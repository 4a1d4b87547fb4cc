import Brainfuck.Machine.Fault

set_option autoImplicit false

/-! # Streams

The input and the output of a running program. Every call of a stream is recorded with its fault,
and all that can be observed of the streams is read off this record: the bytes written and taken,
the number of calls, and how much had been written at each flush. Interrupted reads and writes are
made again; an interrupted flush is an error. -/

namespace Brainfuck

/-- Why a stream operation fails. -/
inductive StreamError where
  /-- A call failed with this text. -/
  | failed (text : String)
  /-- A write call took no byte. -/
  | wroteNothing
deriving DecidableEq, Repr

namespace StreamError

def message : StreamError → String
  | failed text => text
  | wroteNothing => "failed to write whole buffer"

end StreamError

/-- A call of a stream, with its fault if it had one. -/
inductive Call where
  /-- A read call; the byte is the one it took from the input, if it took one. -/
  | read (fault : Option Fault) (byte : Option UInt8)
  | write (fault : Option Fault) (byte : UInt8)
  | flush (fault : Option Fault)
deriving DecidableEq, Repr

namespace Call

/-- The byte that the call put into the output. -/
def written? : Call → Option UInt8
  | write none byte => some byte
  | _ => none

/-- The byte that the call took from the input. -/
def taken? : Call → Option UInt8
  | read _ byte => byte
  | _ => none

def isRead : Call → Bool
  | read .. => true
  | _ => false

def isWrite : Call → Bool
  | write .. => true
  | _ => false

end Call

structure Streams where
  /-- The input that has not been taken. -/
  input : List UInt8
  readFaults : Schedule := []
  writeFaults : Schedule := []
  flushFaults : Schedule := []
  /-- The calls so far, the newest first. -/
  calls : List Call := []
deriving DecidableEq, Repr

namespace Streams

/-! ## Observations -/

/-- The calls so far, in order. -/
def trace (s : Streams) : List Call := s.calls.reverse

/-- The bytes written so far. -/
def output (s : Streams) : List UInt8 := s.trace.filterMap Call.written?

/-- How many bytes of input have been taken. -/
def consumed (s : Streams) : Nat := (s.calls.filterMap Call.taken?).length

/-- How many read calls have been made. -/
def reads (s : Streams) : Nat := s.calls.countP Call.isRead

/-- How many write calls have been made. -/
def writes (s : Streams) : Nat := s.calls.countP Call.isWrite

/-- For each flush in a list of calls, how much had been written by then; `written` bytes were
    written before. -/
def flushPoints (written : Nat) : List Call → List Nat
  | [] => []
  | .flush _ :: later => written :: flushPoints written later
  | .write none _ :: later => flushPoints (written + 1) later
  | _ :: later => flushPoints written later

/-- How much had been written at each flush. -/
def flushedAt (s : Streams) : List Nat := flushPoints 0 s.trace

/-! ## Calls -/

/-- Records a call. -/
def record (s : Streams) (c : Call) : Streams := { s with calls := c :: s.calls }

/-- A read call that goes through: it takes the next byte, if there is one. -/
def take (s : Streams) : Option UInt8 × Streams :=
  match s.input with
  | [] => (none, s.record (.read none none))
  | b :: rest => (some b, { s with input := rest }.record (.read none (some b)))

/-- Makes read calls under the given schedule until one is not interrupted. -/
def readUnder (s : Streams) : Schedule → Except StreamError (Option UInt8) × Streams
  | [] =>
    let (byte, s) := { s with readFaults := [] }.take
    (.ok byte, s)
  | (n + 1, fault) :: later =>
    let (byte, s) := { s with readFaults := (n, fault) :: later }.take
    (.ok byte, s)
  | (0, .interrupted text) :: later =>
    (s.record (.read (some (.interrupted text)) none)).readUnder later
  | (0, .zero) :: later =>
    (.ok none, { s with readFaults := later }.record (.read (some .zero) none))
  | (0, .error text) :: later =>
    (.error (.failed text), { s with readFaults := later }.record (.read (some (.error text)) none))

/-- Reads one byte; `none` if the input is at its end. -/
def read (s : Streams) : Except StreamError (Option UInt8) × Streams :=
  s.readUnder s.readFaults

/-- Makes write calls for `b` under the given schedule until one is not interrupted. -/
def writeUnder (s : Streams) (b : UInt8) : Schedule → Except StreamError Unit × Streams
  | [] => (.ok (), { s with writeFaults := [] }.record (.write none b))
  | (n + 1, fault) :: later =>
    (.ok (), { s with writeFaults := (n, fault) :: later }.record (.write none b))
  | (0, .interrupted text) :: later =>
    (s.record (.write (some (.interrupted text)) b)).writeUnder b later
  | (0, .zero) :: later =>
    (.error .wroteNothing, { s with writeFaults := later }.record (.write (some .zero) b))
  | (0, .error text) :: later =>
    (.error (.failed text),
      { s with writeFaults := later }.record (.write (some (.error text)) b))

/-- Writes one byte. -/
def write (s : Streams) (b : UInt8) : Except StreamError Unit × Streams :=
  s.writeUnder b s.writeFaults

/-- Flushes the output. A flush is a single call and transfers no bytes itself. -/
def flush (s : Streams) : Except StreamError Unit × Streams :=
  let (fault, later) := s.flushFaults.next
  let s := { s with flushFaults := later }.record (.flush fault)
  match fault with
  | some (.error text) | some (.interrupted text) => (.error (.failed text), s)
  | some .zero | none => (.ok (), s)

end Streams

end Brainfuck
