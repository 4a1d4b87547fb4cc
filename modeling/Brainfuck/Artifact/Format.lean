import Brainfuck.Artifact.Payload

set_option autoImplicit false

/-! # Artifacts

A program as the contents of a file: a launcher line, by which the file can be started like any
other program, a mark of four bytes, the version of the format, and the payload. The launcher line
may be any line that starts with `#!`, or be missing; bytes behind the payload are ignored. -/

namespace Brainfuck

/-- Why bytes are not an artifact. -/
inductive FormatError where
  /-- The launcher line has no end. -/
  | unterminatedLauncher
  /-- The mark is missing. -/
  | missingMagic
  /-- Nothing stands behind the mark. -/
  | missingVersion
  /-- The format has another version. -/
  | unsupportedVersion (version : UInt8)
  /-- The payload cannot be read. -/
  | corrupt (cause : PayloadError)
deriving DecidableEq, Repr

namespace FormatError

def message : FormatError → String
  | unterminatedLauncher => "not a bytecode artifact: unterminated launcher line"
  | missingMagic => "not a bytecode artifact: missing BFBC magic"
  | missingVersion => "not a bytecode artifact: missing format version"
  | unsupportedVersion version => s!"unsupported artifact format version {version.toNat}"
  | corrupt cause => s!"corrupt artifact: {cause.message}"

end FormatError

namespace Artifact

/-- The line by which the system starts an artifact: `#!/usr/bin/env -S bfc --run`. -/
def launcher : List UInt8 :=
  [0x23, 0x21, 0x2f, 0x75, 0x73, 0x72, 0x2f, 0x62, 0x69, 0x6e, 0x2f, 0x65, 0x6e, 0x76, 0x20, 0x2d,
    0x53, 0x20, 0x62, 0x66, 0x63, 0x20, 0x2d, 0x2d, 0x72, 0x75, 0x6e, 0x0a]

/-- The mark of an artifact: `BFBC`. -/
def magic : List UInt8 := [0x42, 0x46, 0x42, 0x43]

/-- The version of the format that is written and read here. -/
def version : UInt8 := 1

/-- The byte that ends a line. -/
def newline : UInt8 := 0x0a

/-- The bytes by which a launcher line is known: `#!`. -/
def launcherMark : List UInt8 := [0x23, 0x21]

def encode (p : Program) : List UInt8 :=
  launcher ++ magic ++ version :: Payload.write p

/-- The bytes behind the launcher line, if there is one. -/
def dropLauncher (bytes : List UInt8) : Except FormatError (List UInt8) :=
  if launcherMark.isPrefixOf bytes then
    match bytes.dropWhile (· != newline) with
    | [] => .error .unterminatedLauncher
    | _ :: body => .ok body
  else .ok bytes

/-- The version and the bytes behind it. -/
def dropMagic (body : List UInt8) : Except FormatError (UInt8 × List UInt8) :=
  if magic.isPrefixOf body then
    match body.drop magic.length with
    | [] => .error .missingVersion
    | v :: payload => .ok (v, payload)
  else .error .missingMagic

def decode (bytes : List UInt8) : Except FormatError Program := do
  let body ← dropLauncher bytes
  let (v, payload) ← dropMagic body
  if v ≠ version then throw (.unsupportedVersion v)
  match Payload.read payload with
  | .ok (p, _) => return p
  | .error cause => throw (.corrupt cause)

end Artifact

end Brainfuck
