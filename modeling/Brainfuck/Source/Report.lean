import Brainfuck.Source.Run
import Brainfuck.Text.Columns

set_option autoImplicit false

/-! # Reports on runs

One line a run: its place, the group of its command, and the run itself, as the command's name with
the count or as it could stand in the source. -/

namespace Brainfuck

/-- What a command acts on. -/
inductive CommandGroup where
  | cell
  | pointer
  | inputOutput
  | bracket
deriving DecidableEq, Repr

namespace CommandGroup

/-- The group's label in a report. -/
def label : CommandGroup → String
  | cell => "CELL"
  | pointer => "PTR"
  | inputOutput => "IO"
  | bracket => "BRACKET"

/-- The terminal sequence that switches to the group's colour. -/
def colour : CommandGroup → String
  | cell => "\x1b[36m"
  | pointer => "\x1b[33m"
  | inputOutput => "\x1b[32m"
  | bracket => "\x1b[35m"

end CommandGroup

/-- The group that a command belongs to. -/
def Command.group : Command → CommandGroup
  | .increment | .decrement => .cell
  | .moveLeft | .moveRight => .pointer
  | .write | .read => .inputOutput
  | .loopStart | .loopEnd => .bracket

/-- How a report looks. -/
structure ReportStyle where
  /-- With terminal colours. -/
  colour : Bool := true
  /-- With the command's name and count, in place of the source text. -/
  named : Bool := true
deriving DecidableEq, Repr

namespace Run

/-- The longest run that a report writes out symbol by symbol. -/
def longestWrittenOut : Nat := 16

/-- A run as source text; a long one is abbreviated. -/
def sourceText (r : Run) : String :=
  if r.count ≤ longestWrittenOut then String.ofList (List.replicate r.count r.command.symbol)
  else s!"{r.command.symbol} ({r.count} times)"

/-- A run as the name of its command and the count. -/
def namedText (r : Run) : String :=
  s!"{r.command.name} x{r.count}"

/-- The line of a report on one run. -/
def reportLine (style : ReportStyle) (r : Run) : String :=
  let line := Text.zeroPadded 2 r.position.line
  let col := Text.zeroPadded 2 r.position.col
  let label := Text.padRight 8 r.command.group.label
  let value := if style.named then r.namedText else r.sourceText
  let on := if style.colour then r.command.group.colour else ""
  let off := if style.colour then "\x1b[0m" else ""
  s!"[{line}:{col}] {on}{label} {value}{off}"

end Run

end Brainfuck
