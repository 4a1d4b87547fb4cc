import Brainfuck.CommandLine.Request
import Brainfuck.Bytecode.Listing
import Brainfuck.Disk.Store

set_option autoImplicit false

/-! # Performing requests

What is asked comes in two parts. All that concerns files is done first, by calls of a file system,
and leaves a single job: a text to show, or a program to run. Carrying out the job ends the
process.

On a tree of files this makes the whole program a function: from the arguments, the standard input
and the files to the exit code, the two output streams and the files afterwards. -/

namespace Brainfuck

namespace CommandLine

/-! ## Up to the job -/

/-- What is left to do when the files have been dealt with. -/
inductive Job where
  | display (text : String)
  | run (p : Program)
deriving DecidableEq, Repr

section

variable {m : Type → Type} [Monad m] (fs : FileSystem m) (tag : String)

/-- Does what a request asks of the files; the tag is that of the hidden file that is needed to
    store a program. -/
def Request.prepare : Request → ExceptT Error m Job
  | run artifact => do
    let p ← (fs.readArtifact artifact).adapt .artifact
    return .run p
  | report source policy style => do
    let text ← fs.readSource source
    return .display (reportText policy style text)
  | compile source output options listed => do
    let p ← fs.compileFile tag options source output
    return .display (if listed then p.listing else "")
  | list source options => do
    let p ← fs.compileSource options source
    return .display p.listing

/-- Does what accepted arguments ask of the files. -/
def Arguments.prepare (a : Arguments) : ExceptT Error m Job := do
  let request ← a.request
  request.prepare fs tag

end

/-! ## From the job to the end -/

/-- How a process ends. -/
structure Exit where
  code : UInt8
  stdout : List UInt8
  stderr : String
  tree : FileTree
deriving DecidableEq, Repr

namespace Exit

/-- Ends with success. -/
def success (tree : FileTree) (stdout : List UInt8) : Exit :=
  { code := 0, stdout, stderr := "", tree }

/-- Ends with an error, after some output. -/
def failure (tree : FileTree) (stdout : List UInt8) (e : Error) : Exit :=
  { code := e.exitCode, stdout, stderr := errorText e, tree }

/-- Ends with an outcome, after some output. -/
def ofOutcome (tree : FileTree) (stdout : List UInt8) : Except Error Unit → Exit
  | .ok () => success tree stdout
  | .error e => failure tree stdout e

end Exit

/-- What the process finds: its files, its standard input, the tag of its hidden files, and the
    failures that the system has in store for it. -/
structure Surroundings where
  tree : FileTree
  stdin : List UInt8
  tag : String
  faults : StoreFaults := {}

/-- Carries out a job within `fuel` steps of the machine. -/
def Job.perform (tree : FileTree) (stdin : List UInt8) (fuel : Nat) : Job → Option Exit
  | display text => some (.success tree text.toUTF8.toList)
  | run p =>
    (p.run none fuel .empty { input := stdin }).map fun r =>
      .ofOutcome tree r.streams.output (r.outcome.mapError .run)

/-- Does all that accepted arguments ask for, within `fuel` steps of the machine. -/
def Arguments.perform (a : Arguments) (w : Surroundings) (fuel : Nat) : Option Exit :=
  match (a.prepare (FileTree.system w.faults) w.tag).run w.tree with
  | (.error e, tree) => some (.failure tree [] e)
  | (.ok job, tree) => job.perform tree w.stdin fuel

/-- What a process answers to its arguments. -/
inductive Reply where
  /-- The arguments are not accepted. -/
  | rejected
  | help
  | version
  | ended (exit : Exit)
deriving DecidableEq, Repr

/-- The whole program, within `fuel` steps of the machine. -/
def reply (w : Surroundings) (fuel : Nat) (arguments : List String) : Option Reply :=
  match Arguments.parse arguments with
  | .rejected => some .rejected
  | .help => some .help
  | .version => some .version
  | .accepted a => (a.perform w fuel).map .ended

end CommandLine

end Brainfuck
