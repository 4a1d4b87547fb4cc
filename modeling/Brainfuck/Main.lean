import Brainfuck.CommandLine.Perform

set_option autoImplicit false

/-! # The command line program

Real files and streams around the library, which decides what is done with them. The calls of the
file system are those of the process. A program is run step by step: the recorded stream calls of
each step are carried out, and a byte of standard input is fetched only when the next instruction
reads one, after all output before it has been flushed. -/

namespace Brainfuck.CommandLine

/-- The system's number for an error, which some calls report with a minus sign. -/
def errorNumber (code : UInt32) : Nat := code.toInt32.toInt.natAbs

/-- The system's refusal behind an exception. -/
def refusal (e : IO.Error) : SystemError :=
  match e with
  | .noFileOrDirectory .. => .notFound
  | .inappropriateType _ code _ =>
    match errorNumber code with
    | 20 => .notDirectory
    | 21 => .isDirectory
    | _ => .other e.toString
  | .invalidArgument _ code _ =>
    if errorNumber code = 36 then .nameTooLong else .other e.toString
  | .resourceBusy code _ => if errorNumber code = 16 then .busy else .other e.toString
  | _ => .other e.toString

/-- Does something with the system; a refusal is a value. -/
def attempt {α : Type} (act : IO α) : ExceptT SystemError IO α := .mk do
  try
    return .ok (← act)
  catch e =>
    return .error (refusal e)

/-! ## Files -/

/-- Everybody may read and execute the file, and its owner may write it. -/
def artifactRights : IO.FileRight :=
  let others : IO.AccessRight := { read := true, execution := true }
  { user := { others with write := true }, group := others, other := others }

/-- The files of the process. -/
def files : FileSystem IO where
  readFile path := return (← attempt (IO.FS.readBinFile path)).toList
  writeFile path content := attempt (IO.FS.writeBinFile path ⟨content.toArray⟩)
  makeExecutable path := attempt (IO.setAccessRights path artifactRights)
  rename source target := attempt (IO.FS.rename source target)
  removeFile path := discard (attempt (IO.FS.removeFile path)).run

/-- The number of the process, where the system has a link that leads to it. -/
def processNumber : IO String := do
  match ← (attempt (IO.FS.realPath "/proc/self")).run with
  | .ok path => return path.fileName.getD ""
  | .error _ => return ""

/-- Tells apart hidden files that are in use at once: the number of the process, and how many
    programs it has stored before, which is none. -/
def hiddenTag : IO String := return (← processNumber) ++ ".0"

/-! ## Running -/

/-- Carries out the recorded calls on standard output and clears the record. -/
def carryOut (stdout : IO.FS.Stream) (s : Streams) : IO Streams := do
  for call in s.trace do
    match call with
    | .write none b => stdout.write ⟨#[b]⟩
    | .flush none => stdout.flush
    | _ => pure ()
  return { s with calls := [] }

/-- The machine with a byte of standard input at hand, if the next instruction reads one. -/
def supply (stdin stdout : IO.FS.Stream) (p : Program) (m : Machine) : IO Machine := do
  match p.ops[m.ip]? with
  | some .read =>
    stdout.flush
    return { m with streams := { m.streams with input := (← stdin.read 1).toList } }
  | _ => return m

/-- Runs the machine to the end of the program. -/
partial def interact (stdin stdout : IO.FS.Stream) (p : Program) (m : Machine) :
    IO (Except RunError Unit) := do
  match (← supply stdin stdout p m).step p none with
  | .next m => interact stdin stdout p { m with streams := ← carryOut stdout m.streams }
  | .done outcome m =>
    let r := Program.conclude outcome m
    let _ ← carryOut stdout r.streams
    return r.outcome

def runProgram (p : Program) : IO (Except Error Unit) := do
  match p.load with
  | .error e => return .error (.run e)
  | .ok tape =>
    let m : Machine := { tape, streams := { input := [] } }
    match ← (attempt (interact (← IO.getStdin) (← IO.getStdout) p m)).run with
    | .ok outcome => return outcome.mapError .run
    | .error e => return .error (.run (.stream (.failed e.message)))

/-! ## The process -/

/-- Carries out the job that is left. -/
def Job.carryOut : Job → IO (Except Error Unit)
  | .display text => do
    (← IO.getStdout).putStr text
    return .ok ()
  | .run p => runProgram p

/-- Ends with an outcome: an error is shown, and its code is the exit code. -/
def conclude (outcome : Except Error Unit) : IO UInt32 := do
  match outcome with
  | .ok () => return 0
  | .error e =>
    (← IO.getStderr).putStr (errorText e)
    return e.exitCode.toUInt32

/-- Answers the arguments and returns the exit code. -/
def perform (arguments : List String) : IO UInt32 := do
  match Arguments.parse arguments with
  | .rejected =>
    (← IO.getStderr).putStr ("error: the arguments are not accepted\n" ++ usageText)
    return 1
  | .help =>
    (← IO.getStdout).putStr ("Compile Brainfuck source into a runnable bytecode artifact\n" ++ usageText)
    return 0
  | .version =>
    (← IO.getStdout).putStr versionText
    return 0
  | .accepted a =>
    match ← (a.prepare files (← hiddenTag)).run with
    | .error e => conclude (.error e)
    | .ok job => conclude (← job.carryOut)

end Brainfuck.CommandLine

def main (arguments : List String) : IO UInt32 :=
  Brainfuck.CommandLine.perform arguments
