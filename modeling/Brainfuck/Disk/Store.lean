import Brainfuck.Disk.System
import Brainfuck.Machine.Outcome

set_option autoImplicit false

/-! # Sources and artifacts in a tree

A tree answers the calls of a file system: a call that is refused leaves it as it is, and any other
changes it. The system may refuse more than the tree does, such as a write to a full disk. -/

namespace Brainfuck

/-- Failures that the system may add to those that the tree itself forces, such as a full disk: one
    for each step of storing a file. -/
structure StoreFaults where
  /-- A failure of the write, and how many bytes reached the file before it, if it was made at
      all. -/
  write : Option (SystemError × Option Nat) := none
  /-- A failure to make the file executable. -/
  mode : Option SystemError := none
  /-- A failure of the rename. -/
  rename : Option SystemError := none
deriving DecidableEq, Repr

namespace FileTree

/-! ## Calls -/

/-- The answer to a call that changes the tree unless it is refused. -/
def answer (t : FileTree) : Except SystemError FileTree → Except SystemError Unit × FileTree
  | .ok t => (.ok (), t)
  | .error e => (.error e, t)

/-- Writes a file, or as much of it as the fault lets through. -/
def storeContent (faults : StoreFaults) (t : FileTree) (path : String) (content : List UInt8) :
    Except SystemError Unit × FileTree :=
  match faults.write with
  | none => t.answer (t.writeFile path content)
  | some (e, none) => (.error e, t)
  | some (e, some reached) =>
    match t.writeFile path (content.take reached) with
    | .ok t => (.error e, t)
    | .error e => (.error e, t)

def storeMode (faults : StoreFaults) (t : FileTree) (path : String) :
    Except SystemError Unit × FileTree :=
  match faults.mode with
  | some e => (.error e, t)
  | none => t.answer (t.makeExecutable path)

def storeName (faults : StoreFaults) (t : FileTree) (source target : String) :
    Except SystemError Unit × FileTree :=
  match faults.rename with
  | some e => (.error e, t)
  | none => t.answer (t.rename source target)

/-- A tree as a file system. -/
def system (faults : StoreFaults) : FileSystem (StateM FileTree) where
  readFile path := .mk fun t => (t.readFile path, t)
  writeFile path content := .mk fun t => t.storeContent faults path content
  makeExecutable path := .mk fun t => t.storeMode faults path
  rename source target := .mk fun t => t.storeName faults source target
  removeFile path := modify (·.removeFile path)

/-! ## Sources and artifacts -/

/-- The text of a source file. -/
def readSource (t : FileTree) (path : String) : Except Error String :=
  (((system {}).readSource path).run t).1

/-- The program stored under a path. -/
def readArtifact (t : FileTree) (path : String) : Except ArtifactError Program :=
  (((system {}).readArtifact path).run t).1

/-- Stores a program under a path, wholly or not at all. -/
def writeArtifact (faults : StoreFaults) (tag : String) (t : FileTree) (p : Program)
    (output : String) : Except ArtifactError Unit × FileTree :=
  ((system faults).writeArtifact tag p output).run t

/-- Compiles a source file and stores the program. -/
def compileFile (faults : StoreFaults) (tag : String) (t : FileTree) (options : CompileOptions)
    (input output : String) : Except Error Program × FileTree :=
  ((system faults).compileFile tag options input output).run t

/-- Loads an artifact and runs it within `fuel` steps. -/
def runArtifact (t : FileTree) (path : String) (limit : Option Nat) (fuel : Nat)
    (streams : Streams) : Option (Except Error Unit × Streams) :=
  match t.readArtifact path with
  | .error e => some (.error (.artifact e), streams)
  | .ok p => (p.run limit fuel .empty streams).map fun r => (r.outcome.mapError .run, r.streams)

end FileTree

end Brainfuck
