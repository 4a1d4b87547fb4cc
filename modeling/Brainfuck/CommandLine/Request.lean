import Brainfuck.CommandLine.Arguments
import Brainfuck.Source.Report
import Brainfuck.Error

set_option autoImplicit false

/-! # Requests

What accepted arguments ask for: to run an artifact, to report the runs of a source, to compile a
source to a file, or to list the program of a source. -/

namespace Brainfuck

namespace CommandLine

inductive Request where
  | run (artifact : String)
  | report (source : String) (policy : RunPolicy) (style : ReportStyle)
  /-- Compiles a source to a file and, if asked, lists the program. -/
  | compile (source output : String) (options : CompileOptions) (listed : Bool)
  | list (source : String) (options : CompileOptions)
deriving DecidableEq, Repr

namespace Arguments

def has (a : Arguments) (s : Switch) : Bool := a.switches.contains s

def policy (a : Arguments) : RunPolicy :=
  if a.has .filteredRuns then .filtered else .adjacent

def options (a : Arguments) : CompileOptions where
  memorySize := a.memorySize.getD defaultMemorySize
  boundsCheck := a.has .boundsCheck
  policy := a.policy

def style (a : Arguments) : ReportStyle where
  colour := !a.has .noColour
  named := !a.has .pretty

/-- What the arguments ask for. -/
def request (a : Arguments) : Except Error Request :=
  match a.run, a.files with
  | some artifact, _ => .ok (.run artifact)
  | none, [] => .error (.arguments "expected an input file and an output file")
  | none, source :: more =>
    if a.has .tokens then .ok (.report source a.policy a.style)
    else
      match more with
      | output :: _ => .ok (.compile source output a.options (a.has .bytecode))
      | [] =>
        if a.has .bytecode then .ok (.list source a.options)
        else .error (.arguments "expected an output file after the input file")

end Arguments

/-! ## Fixed texts -/

/-- What is shown for a request for the version. -/
def versionText : String := "bfc 0.1.0\n"

/-- What is shown behind an error in the arguments. -/
def usageText : String :=
  "\nUsage:\n" ++
    "  bfc <in.bf> <out>          Compile to an artifact\n" ++
    "  bfc --tokens <in.bf>       Show compressed command runs\n" ++
    "  bfc --bc <in.bf> [out]     Show bytecode (and compile if out is given)\n" ++
    "  bfc --run <artifact>       Run a compiled artifact\n"

/-- What is shown on the error stream for an error. -/
def errorText (e : Error) : String :=
  match e with
  | .arguments _ => e.message ++ "\n" ++ usageText
  | _ => e.message ++ "\n"

/-- The report on the runs of a source, one line each. -/
def reportText (policy : RunPolicy) (style : ReportStyle) (source : String) : String :=
  (Run.ofSource policy source).foldl (fun text r => text ++ r.reportLine style ++ "\n") ""

end CommandLine

end Brainfuck
