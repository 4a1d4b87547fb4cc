import Brainfuck.Source.Command

set_option autoImplicit false

/-! # Runs of commands

A source is read as a list of runs: a command, how often it is repeated, and the place of its first
character. What counts as repeated is a matter of policy: either equal characters side by side, or
equal commands with nothing but comments between them.

The scan is a left fold over the characters. Its state holds the place of the next character, the
character before it and the runs found so far, newest first. -/

namespace Brainfuck

/-! ## Places in a source -/

/-- A line and a column, both counted from 1. -/
structure Position where
  line : Nat
  col : Nat
deriving DecidableEq, Repr, Inhabited

namespace Position

/-- The place of the first character. -/
def start : Position := ⟨1, 1⟩

/-- The place after `c`: a newline opens the next line, any other character takes one column. -/
def advance (p : Position) (c : Char) : Position :=
  if c = '\n' then ⟨p.line + 1, 1⟩ else ⟨p.line, p.col + 1⟩

/-- Line and column with a colon between them. -/
def text (p : Position) : String :=
  s!"{p.line}:{p.col}"

end Position

/-! ## Runs -/

/-- `count` times the same command, the first of them at `position`. -/
structure Run where
  command : Command
  count : Nat
  position : Position
deriving DecidableEq, Repr, Inhabited

/-- Which repetitions of a command belong to one run. -/
inductive RunPolicy where
  /-- Equal characters side by side: a comment ends the run. -/
  | adjacent
  /-- Equal commands with no other command between them: comments do not count. -/
  | filtered
deriving DecidableEq, Repr, Inhabited

namespace RunPolicy

/-- The name under which settings show a policy. -/
def name : RunPolicy → String
  | adjacent => "Adjacent"
  | filtered => "Filtered"

end RunPolicy

/-! ## Scanning -/

/-- What the scan knows between two characters. -/
structure Scan where
  /-- The place of the next character. -/
  position : Position
  /-- The character just read. -/
  previous : Option Char
  /-- The runs so far, newest first. -/
  runs : List Run
deriving Repr

namespace Scan

/-- A scan that starts at `position`. -/
def start (position : Position) : Scan :=
  { position, previous := none, runs := [] }

/-- Whether the command `k`, written as `c`, goes on with the newest run `r`. -/
def continues (policy : RunPolicy) (s : Scan) (c : Char) (k : Command) (r : Run) : Bool :=
  match policy with
  | .adjacent => s.previous == some c
  | .filtered => r.command == k

/-- The runs after the command `k`, written as `c`: the newest run grows or a new one opens. -/
def record (policy : RunPolicy) (s : Scan) (c : Char) (k : Command) : List Run :=
  match s.runs with
  | [] => [⟨k, 1, s.position⟩]
  | r :: rest =>
    if s.continues policy c k r then { r with count := r.count + 1 } :: rest
    else ⟨k, 1, s.position⟩ :: r :: rest

/-- Reads one character. -/
def read (policy : RunPolicy) (s : Scan) (c : Char) : Scan where
  position := s.position.advance c
  previous := some c
  runs := match Command.ofChar? c with
    | none => s.runs
    | some k => s.record policy c k

end Scan

/-- A source with the place up to which it has been scanned. -/
structure Scanner where
  /-- The characters that are still to be scanned. -/
  rest : List Char
  /-- The place of the first of them. -/
  position : Position
deriving Repr

namespace Scanner

/-- A scanner at the beginning of `source`. -/
def ofString (source : String) : Scanner :=
  { rest := source.toList, position := .start }

/-- The state of the scan after all that is left. -/
def scan (s : Scanner) (policy : RunPolicy) : Scan :=
  s.rest.foldl (Scan.read policy) (.start s.position)

/-- The runs of all that is left, and the scanner at the end of the source, where a further call
    finds nothing. -/
def compress (s : Scanner) (policy : RunPolicy) : List Run × Scanner :=
  let final := s.scan policy
  (final.runs.reverse, { rest := [], position := final.position })

@[simp] theorem rest_compress (s : Scanner) (policy : RunPolicy) :
    (s.compress policy).2.rest = [] := rfl

end Scanner

/-- The runs of a whole source. -/
def Run.ofSource (policy : RunPolicy) (source : String) : List Run :=
  ((Scanner.ofString source).compress policy).1

end Brainfuck
