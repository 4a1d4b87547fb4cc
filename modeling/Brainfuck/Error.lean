import Brainfuck.Bytecode.Compile
import Brainfuck.Artifact.Format
import Brainfuck.Machine.Step
import Brainfuck.Disk.Tree

set_option autoImplicit false

/-! # Errors of the program

All that can go wrong between a command line and the end of a run, with the message that is shown
and the code that the process ends with. -/

namespace Brainfuck

/-- Why an artifact cannot be stored or loaded. -/
inductive ArtifactError where
  /-- The path of the output has no file name. -/
  | noFileName (path : String)
  | write (path : String) (cause : SystemError)
  | read (path : String) (cause : SystemError)
  /-- The file is there and holds something else. -/
  | format (cause : FormatError)
deriving DecidableEq, Repr

namespace ArtifactError

def message : ArtifactError → String
  | noFileName path => s!"invalid output path '{path}': it has no file name"
  | write path cause => s!"cannot write '{path}': {cause.message}"
  | read path cause => s!"cannot read '{path}': {cause.message}"
  | format cause => cause.message

end ArtifactError

inductive Error where
  /-- The arguments do not say what to do. -/
  | arguments (text : String)
  /-- The source cannot be read. -/
  | source (path : String) (cause : SystemError)
  | compile (cause : CompileError)
  | artifact (cause : ArtifactError)
  | run (cause : RunError)
deriving DecidableEq, Repr

namespace Error

def message : Error → String
  | arguments text => s!"invalid arguments: {text}"
  | source path cause => s!"cannot read source '{path}': {cause.message}"
  | compile cause => cause.message
  | artifact cause => cause.message
  | run cause => cause.message

/-- The code that the process ends with. -/
def exitCode : Error → UInt8
  | arguments _ => 1
  | source .. => 2
  | compile _ => 3
  | artifact _ => 4
  | run _ => 5

end Error

end Brainfuck
