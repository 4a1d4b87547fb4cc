set_option autoImplicit false

/-! # Paths

A path is a text whose pieces are divided by `/`. Empty pieces and the piece `.` lead nowhere, and
`..` leads to the directory above. A path that starts with `/` does not start from the working
directory. The system counts the lengths of names and paths in bytes of UTF-8. -/

namespace Brainfuck.Path

/-- Divides characters at each `/`. There is always at least one piece. -/
def split : List Char → List (List Char)
  | [] => [[]]
  | c :: rest =>
    if c = '/' then [] :: split rest
    else
      match split rest with
      | [] => [[c]]
      | piece :: more => (c :: piece) :: more

/-- The pieces of a path, from left to right. -/
def pieces (path : String) : List String :=
  (split path.toList).map String.ofList

/-- Whether a path starts from the top of the file system. -/
def isAbsolute (path : String) : Bool :=
  path.toList.head? == some '/'

/-- A piece that stays in the directory it stands in. -/
def isIdle (piece : String) : Bool :=
  piece == "" || piece == "."

/-! ## Limits -/

/-- The longest name that a directory takes, in bytes. -/
def maxName : Nat := 255

/-- The longest path that the system takes, in bytes. -/
def maxPath : Nat := 4095

/-- A path that holds a NUL character, which no name can hold. -/
def hasNul (path : String) : Bool :=
  path.toList.contains '\x00'

/-! ## The last name -/

/-- Drops pieces that lead nowhere from the end. -/
def trimEnd (ps : List String) : List String :=
  (ps.reverse.dropWhile isIdle).reverse

/-- The name that a path ends in; `none` if it ends in no name at all. -/
def fileName? (path : String) : Option String :=
  match (trimEnd (pieces path)).getLast? with
  | none => none
  | some name => if name = ".." then none else some name

/-- The path without its last name, and without pieces that lead nowhere before that name. A first
    piece that is empty or `.` says where the path starts, and stays. -/
def parentPieces (path : String) : List String :=
  match pieces path with
  | first :: rest =>
    if isIdle first then first :: trimEnd (trimEnd rest).dropLast
    else trimEnd (trimEnd (first :: rest)).dropLast
  | [] => []

/-- The directory that a path's last name stands in. -/
def directory (path : String) : String :=
  match parentPieces path with
  | [] => "."
  | [""] => "/"
  | ps => "/".intercalate ps

/-- The path of a name in a directory. -/
def join (dir name : String) : String :=
  if dir.toList.getLast? == some '/' then dir ++ name else dir ++ "/" ++ name

end Brainfuck.Path
