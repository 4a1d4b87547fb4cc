set_option autoImplicit false

/-! # Commands

The eight characters of a source that mean something. Every other character is a comment. -/

namespace Brainfuck

/-- What a command character asks for. -/
inductive Command where
  | increment
  | decrement
  | moveLeft
  | moveRight
  | write
  | read
  | loopStart
  | loopEnd
deriving DecidableEq, Repr, Inhabited

namespace Command

/-- The character that stands for a command in a source. -/
def symbol : Command → Char
  | increment => '+'
  | decrement => '-'
  | moveLeft => '<'
  | moveRight => '>'
  | write => '.'
  | read => ','
  | loopStart => '['
  | loopEnd => ']'

/-- The command that a character stands for; `none` for a comment character. -/
def ofChar? (c : Char) : Option Command :=
  match c with
  | '+' => some increment
  | '-' => some decrement
  | '<' => some moveLeft
  | '>' => some moveRight
  | '.' => some write
  | ',' => some read
  | '[' => some loopStart
  | ']' => some loopEnd
  | _ => none

/-- The name under which reports show a command. -/
def name : Command → String
  | increment => "IncCell"
  | decrement => "DecCell"
  | moveLeft => "MoveLeft"
  | moveRight => "MoveRight"
  | write => "Write"
  | read => "Read"
  | loopStart => "LoopStart"
  | loopEnd => "LoopEnd"

@[simp] theorem ofChar?_symbol (k : Command) : ofChar? k.symbol = some k := by
  cases k <;> rfl

/-- A character stands for at most one command, and that command is written with it. -/
theorem ofChar?_eq_some_iff {c : Char} {k : Command} : ofChar? c = some k ↔ c = k.symbol := by
  constructor
  · intro h
    unfold ofChar? at h
    split at h <;> first | contradiction | (cases h; rfl)
  · rintro rfl
    exact ofChar?_symbol k

/-! ## Looking through the symbols

What a character stands for, said by the symbols of the commands and nothing else. -/

def all : List Command :=
  [increment, decrement, moveLeft, moveRight, write, read, loopStart, loopEnd]

/-- The command whose symbol is `c`, if there is one. -/
def ofSymbol? (c : Char) : Option Command := all.find? (·.symbol == c)

theorem ofSymbol?_eq_some_iff {c : Char} {k : Command} : ofSymbol? c = some k ↔ c = k.symbol := by
  constructor
  · intro h
    have hsymbol := List.find?_some h
    exact (beq_iff_eq.1 hsymbol).symm
  · rintro rfl
    cases k <;> rfl

theorem ofSymbol?_eq_ofChar? : ofSymbol? = ofChar? := by
  funext c
  ext k
  rw [ofSymbol?_eq_some_iff, ofChar?_eq_some_iff]

end Command

end Brainfuck
