import Brainfuck.Bytecode.Program

set_option autoImplicit false

/-! # Arguments

The arguments are read from left to right, and the first one that decides the matter does: a
request for help or for the version, or an argument that cannot be accepted. Flags and file names
may stand in any order. A flag with a value is followed by it or by `=` and it; `--` ends the
flags. Only when all arguments have been read is it checked that they go together. -/

namespace Brainfuck

namespace CommandLine

/-- A flag without a value. -/
inductive Switch where
  | filteredRuns
  | boundsCheck
  | tokens
  | noColour
  | pretty
  | bytecode
deriving DecidableEq, Repr

/-- A flag with a value. -/
inductive Setting where
  | memorySize
  | run
deriving DecidableEq, Repr

/-- What a long flag asks for. -/
inductive Flag where
  | switch (s : Switch)
  | setting (s : Setting)
  | help
  | version
deriving DecidableEq, Repr

/-- The flag of a name; `none` for a name that is not known. -/
def Flag.ofName? (name : String) : Option Flag :=
  match name with
  | "filtered-runs" => some (.switch .filteredRuns)
  | "bounds-check" => some (.switch .boundsCheck)
  | "tokens" => some (.switch .tokens)
  | "no-color" => some (.switch .noColour)
  | "pretty" => some (.switch .pretty)
  | "bc" | "bytecode" => some (.switch .bytecode)
  | "memory-size" => some (.setting .memorySize)
  | "run" => some (.setting .run)
  | "help" => some .help
  | "version" => some .version
  | _ => none

/-- Accepted arguments. -/
structure Arguments where
  /-- The switches that are on. -/
  switches : List Switch := []
  memorySize : Option UInt64 := none
  /-- The artifact to run. -/
  run : Option String := none
  /-- The file names, at most two: the input and the output. -/
  files : List String := []
deriving DecidableEq, Repr

/-- What a list of arguments comes to. -/
inductive Parsed where
  | accepted (a : Arguments)
  | rejected
  | help
  | version
deriving DecidableEq, Repr

/-! ## Values -/

/-- A number in decimal digits; `none` for anything else, also for no digits. -/
def decimal? : List Char → Option Nat
  | [] => none
  | cs => cs.foldlM (fun n c => if c.isDigit then some (10 * n + (c.toNat - 48)) else none) 0

/-- A number of cells: decimal, with a `+` in front or without, at least 1 and a word. -/
def memorySize? (value : String) : Option UInt64 := do
  let digits := match value.toList with
    | '+' :: rest => rest
    | cs => cs
  let n ← decimal? digits
  if 1 ≤ n ∧ n < UInt64.size then return UInt64.ofNat n else none

/-- An argument that stands for itself, as a value or as a file name. A single `-` does. -/
def isPlain (argument : String) : Bool :=
  match argument.toList with
  | ['-'] => true
  | '-' :: _ => false
  | _ => true

namespace Arguments

/-! ## One argument more

Each of these is `none` if the argument cannot be accepted. -/

/-- Turns a switch on. It may be given once. -/
def addSwitch? (a : Arguments) (s : Switch) : Option Arguments :=
  if s ∈ a.switches then none else some { a with switches := a.switches ++ [s] }

/-- Gives a setting its value. It may be given once. -/
def set? (a : Arguments) (s : Setting) (value : String) : Option Arguments :=
  match s with
  | .memorySize =>
    match a.memorySize, memorySize? value with
    | none, some n => some { a with memorySize := some n }
    | _, _ => none
  | .run =>
    match a.run with
    | none => if value = "" then none else some { a with run := some value }
    | some _ => none

/-- Adds a file name. There are at most two. -/
def addFile? (a : Arguments) (name : String) : Option Arguments :=
  if name = "" ∨ 2 ≤ a.files.length then none else some { a with files := a.files ++ [name] }

/-- Whether the arguments go together: an artifact is run without any other task. -/
def consistent (a : Arguments) : Bool :=
  a.run.isNone || (a.files.isEmpty && !a.switches.contains .tokens && !a.switches.contains .bytecode)

/-- The verdict once all arguments have been read. -/
def finish (a : Arguments) : Parsed :=
  if a.consistent then .accepted a else .rejected

/-- Reads arguments that are all file names. -/
def readFiles (a : Arguments) : List String → Parsed
  | [] => a.finish
  | name :: rest =>
    match a.addFile? name with
    | some a => a.readFiles rest
    | none => .rejected

/-- A long flag without its dashes: its name, and its value if one is attached. -/
def divide (flag : List Char) : String × Option String :=
  let name := String.ofList (flag.takeWhile (· != '='))
  match flag.dropWhile (· != '=') with
  | [] => (name, none)
  | _ :: value => (name, some (String.ofList value))

/-- Reads arguments. -/
def read (a : Arguments) : List String → Parsed
  | [] => a.finish
  | argument :: rest =>
    match argument.toList with
    | ['-', '-'] => a.readFiles rest
    | '-' :: '-' :: flag =>
      let (name, attached) := divide flag
      match Flag.ofName? name, attached with
      | some .help, none => .help
      | some .version, none => .version
      | some (.switch s), none =>
        match a.addSwitch? s with
        | some a => a.read rest
        | none => .rejected
      | some (.setting s), some value =>
        match a.set? s value with
        | some a => a.read rest
        | none => .rejected
      | some (.setting s), none =>
        match rest with
        | [] => .rejected
        | value :: rest =>
          if isPlain value then
            match a.set? s value with
            | some a => a.read rest
            | none => .rejected
          else .rejected
      | _, _ => .rejected
    | '-' :: 'h' :: _ => .help
    | '-' :: 'V' :: _ => .version
    | '-' :: _ :: _ => .rejected
    | _ =>
      match a.addFile? argument with
      | some a => a.read rest
      | none => .rejected

/-- What a list of arguments comes to. -/
def parse (arguments : List String) : Parsed := read {} arguments

end Arguments

end CommandLine

end Brainfuck
