import Brainfuck.Disk.Path

set_option autoImplicit false

/-! # Places

Where paths lead, without the pieces that do not matter: some levels up from the working directory
and then down along names, or down from the top of the file system. What the working directory and
those above it are called is not known, so that no name leads back to them. -/

namespace Brainfuck

inductive Place where
  /-- So many levels up from the working directory, and then down along the names. -/
  | relative (up : Nat) (names : List String)
  /-- Down from the top of the file system along the names. -/
  | absolute (names : List String)
deriving DecidableEq, Repr

namespace Place

/-- The names that lead down to the place. Without any, it is the working directory, one above it or
    the top. -/
def names : Place → List String
  | relative _ names => names
  | absolute names => names

/-- The names that lead from the working directory to a place in it. -/
def inside? : Place → Option (List String)
  | relative 0 names => some names
  | _ => none

/-- Where a path starts. -/
def origin (path : String) : Place :=
  if Path.isAbsolute path then absolute [] else relative 0 []

/-- The directory above. The top is above itself. -/
def parent : Place → Place
  | relative up [] => relative (up + 1) []
  | relative up names => relative up names.dropLast
  | absolute names => absolute names.dropLast

/-- The place of a name in a directory. -/
def child (name : String) : Place → Place
  | relative up names => relative up (names ++ [name])
  | absolute names => absolute (names ++ [name])

@[simp] theorem names_child (name : String) (p : Place) :
    (p.child name).names = p.names ++ [name] := by
  cases p <;> rfl

theorem names_child_ne_nil (name : String) (p : Place) : (p.child name).names ≠ [] := by
  simp

end Place

end Brainfuck
