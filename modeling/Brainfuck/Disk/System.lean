import Brainfuck.Error

set_option autoImplicit false

/-! # What is done with files

Sources are read, and artifacts are stored and loaded, by calls of a file system. Which calls are
made, in which order, and what becomes of a refusal does not depend on what stands behind the calls:
a tree of files that is known, or the files of the process itself.

An artifact is stored in three steps: it is written to a hidden file beside the output, made
executable, and renamed to the output. If a step fails, the hidden file is removed, so that the
output is either the whole new artifact or what it was before. -/

namespace Brainfuck

/-- The calls of a file system. -/
structure FileSystem (m : Type → Type) where
  readFile (path : String) : ExceptT SystemError m (List UInt8)
  /-- Writes a file, in place of the contents it may have. -/
  writeFile (path : String) (content : List UInt8) : ExceptT SystemError m Unit
  makeExecutable (path : String) : ExceptT SystemError m Unit
  /-- Moves a file to another name, in place of the file that may be there. -/
  rename (source target : String) : ExceptT SystemError m Unit
  /-- Removes a file, if there is one. -/
  removeFile (path : String) : m Unit

namespace FileSystem

/-- The hidden file in which an output is prepared; the tag tells apart those in use at once. -/
def hiddenPath (output name tag : String) : String :=
  Path.join (Path.directory output) s!".{name}.{tag}.tmp"

variable {m : Type → Type} [Monad m] (fs : FileSystem m)

/-- The text of a source file. -/
def readSource (path : String) : ExceptT Error m String := do
  let bytes ← (fs.readFile path).adapt (.source path)
  match String.fromUTF8? ⟨bytes.toArray⟩ with
  | some text => return text
  | none => throw (.source path .notText)

/-- The program of a source file. -/
def compileSource (options : CompileOptions) (path : String) : ExceptT Error m Program := do
  let text ← fs.readSource path
  (Program.compile options text).mapError Error.compile

/-- The program stored under a path. -/
def readArtifact (path : String) : ExceptT ArtifactError m Program := do
  let bytes ← (fs.readFile path).adapt (.read path)
  (Artifact.decode bytes).mapError ArtifactError.format

/-- The three steps, up to the first that fails. -/
def persist (hidden output : String) (content : List UInt8) : ExceptT ArtifactError m Unit := do
  (fs.writeFile hidden content).adapt (.write hidden)
  (fs.makeExecutable hidden).adapt (.write hidden)
  (fs.rename hidden output).adapt (.write output)

/-- Stores a program under a path, wholly or not at all. -/
def writeArtifact (tag : String) (p : Program) (output : String) :
    ExceptT ArtifactError m Unit := do
  match Path.fileName? output with
  | none => throw (.noFileName output)
  | some name =>
    let hidden := hiddenPath output name tag
    try
      fs.persist hidden output (Artifact.encode p)
    catch e =>
      fs.removeFile hidden
      throw e

/-- Compiles a source file and stores the program. -/
def compileFile (tag : String) (options : CompileOptions) (input output : String) :
    ExceptT Error m Program := do
  let p ← fs.compileSource options input
  (fs.writeArtifact tag p output).adapt .artifact
  return p

end FileSystem

end Brainfuck
