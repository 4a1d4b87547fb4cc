import Brainfuck.Disk.Place

set_option autoImplicit false

/-! # File trees

The files and directories that are known, each under its place. The working directory, those above
it and the top of the file system are always there, and files can be read and written in all of
them. Paths are followed piece by piece as the system does it: every piece needs a directory to
stand in, also one that is left again by `..`. The length of a path is looked at before the first
piece, and that of a name when the name is looked up. -/

namespace Brainfuck

/-! ## Errors of the system -/

/-- Why the system refuses an operation on files. -/
inductive SystemError where
  | notFound
  | busy
  | notDirectory
  | isDirectory
  /-- A name, or a path as a whole, is longer than the system takes. -/
  | nameTooLong
  | nulInPath
  /-- A text is not valid UTF-8. -/
  | notText
  /-- Any other refusal, in the system's own words. -/
  | other (text : String)
deriving DecidableEq, Repr

namespace SystemError

def message : SystemError → String
  | notFound => "No such file or directory (os error 2)"
  | busy => "Device or resource busy (os error 16)"
  | notDirectory => "Not a directory (os error 20)"
  | isDirectory => "Is a directory (os error 21)"
  | nameTooLong => "File name too long (os error 36)"
  | nulInPath => "file name contained an unexpected NUL byte"
  | notText => "stream did not contain valid UTF-8"
  | other text => text

end SystemError

/-! ## Trees -/

/-- What a name can stand for. -/
inductive Entry where
  | file (content : List UInt8) (executable : Bool)
  | directory
deriving DecidableEq, Repr

/-- The known entries, each under its place. -/
structure FileTree where
  entries : List (Place × Entry)
deriving DecidableEq, Repr

namespace FileTree

def empty : FileTree := { entries := [] }

/-- The entry at a place. The working directory, those above it and the top are always there. -/
def get? (t : FileTree) (place : Place) : Option Entry :=
  if place.names = [] then some .directory else t.entries.lookup place

/-- Replaces the entry at a place in a list of entries, or adds it at the end. -/
def put (place : Place) (e : Entry) : List (Place × Entry) → List (Place × Entry)
  | [] => [(place, e)]
  | (key, old) :: rest => if key = place then (key, e) :: rest else (key, old) :: put place e rest

/-- Gives a place an entry. -/
def insert (t : FileTree) (place : Place) (e : Entry) : FileTree :=
  { entries := put place e t.entries }

/-- Removes the entry at a place. -/
def erase (t : FileTree) (place : Place) : FileTree :=
  { entries := t.entries.filter (·.1 ≠ place) }

/-- Goes on from a directory by one piece of a path. A directory that is missing is added. -/
def enter : FileTree × Place → String → FileTree × Place
  | (t, here), piece =>
    if Path.isIdle piece then (t, here)
    else if piece = ".." then (t, here.parent)
    else
      let there := here.child piece
      (if (t.get? there).isSome then t else t.insert there .directory, there)

/-- Adds an entry under a path, and the directories that the path leads through as far as they are
    missing. -/
def add (t : FileTree) (path : String) : Entry → FileTree
  | .directory => ((Path.pieces path).foldl enter (t, .origin path)).1
  | .file content executable =>
    match (Path.pieces path).getLast? with
    | none => t
    | some name =>
      let (t, here) := (Path.pieces path).dropLast.foldl enter (t, .origin path)
      t.insert (here.child name) (.file content executable)

/-- Adds entries under their paths. A later one replaces an earlier one. -/
def addAll (t : FileTree) (entries : List (String × Entry)) : FileTree :=
  entries.foldl (fun t (path, e) => t.add path e) t

/-- The directories that stand at the top of every system. -/
def topDirectories : List String :=
  ["/bin", "/dev", "/etc", "/home", "/lib", "/media", "/mnt", "/opt", "/proc", "/root", "/run",
    "/sbin", "/srv", "/sys", "/tmp", "/usr", "/usr/bin", "/usr/lib", "/usr/local", "/usr/sbin",
    "/usr/share", "/var"]

/-- What every system has outside the working directory: the directories at its top, and the device
    that holds nothing. -/
def standard : FileTree :=
  (empty.addAll (topDirectories.map (·, .directory))).add "/dev/null" (.file [] false)

/-- All entries in the working directory; in each directory by name, and what is in a directory
    right behind it. -/
def sorted (t : FileTree) : List (List String × Entry) :=
  (t.entries.filterMap fun (place, e) => place.inside?.map (·, e)).mergeSort
    fun a b => !(b.1 < a.1)

/-! ## Following paths -/

/-- Refuses a path that the system does not even start to follow. -/
def checkPath (path : String) : Except SystemError Unit :=
  if Path.hasNul path then .error .nulInPath
  else if path.utf8ByteSize > Path.maxPath then .error .nameTooLong
  else .ok ()

/-- Refuses a name that no directory takes. -/
def checkName (name : String) : Except SystemError Unit :=
  if name.utf8ByteSize > Path.maxName then .error .nameTooLong else .ok ()

/-- Where the pieces lead from `here`. -/
def follow (t : FileTree) : Place → List String → Except SystemError Place
  | here, [] => .ok here
  | here, piece :: rest =>
    match t.get? here with
    | none => .error .notFound
    | some (.file ..) => .error .notDirectory
    | some .directory =>
      if Path.isIdle piece then t.follow here rest
      else if piece = ".." then t.follow here.parent rest
      else
        match checkName piece with
        | .error e => .error e
        | .ok () =>
          if (t.get? (here.child piece)).isSome then t.follow (here.child piece) rest
          else .error .notFound

/-- Where a path leads. -/
def resolve (t : FileTree) (path : String) : Except SystemError Place := do
  checkPath path
  if path = "" then throw .notFound
  t.follow (.origin path) (Path.pieces path)

/-- The last name of a path and the directory it stands in, whether or not there is an entry of that
    name; and whether slashes follow the name. -/
structure Slot where
  directory : Place
  name : String
  slashed : Bool

/-- The place that the slot gives its entry. -/
def Slot.place (s : Slot) : Place := s.directory.child s.name

/-- Where an entry of the given path stands or would stand. -/
def slot (t : FileTree) (path : String) : Except SystemError Slot := do
  checkPath path
  let ps := Path.pieces path
  let named := (ps.reverse.dropWhile (· == "")).reverse
  match named.getLast? with
  | none => throw .notFound
  | some name =>
    let directory ← t.follow (.origin path) named.dropLast
    match t.get? directory with
    | some .directory => return { directory, name, slashed := named.length < ps.length }
    | some (.file ..) => throw .notDirectory
    | none => throw .notFound

/-! ## Operations -/

/-- The contents of a file. -/
def readFile (t : FileTree) (path : String) : Except SystemError (List UInt8) := do
  match t.get? (← t.resolve path) with
  | some (.file content _) => return content
  | some .directory => throw .isDirectory
  | none => throw .notFound

/-- Writes a file, in place of the contents it may have. -/
def writeFile (t : FileTree) (path : String) (content : List UInt8) :
    Except SystemError FileTree := do
  let slot ← t.slot path
  if slot.slashed ∨ slot.name = "." ∨ slot.name = ".." then throw .isDirectory
  checkName slot.name
  match t.get? slot.place with
  | some .directory => throw .isDirectory
  | some (.file _ executable) => return t.insert slot.place (.file content executable)
  | none => return t.insert slot.place (.file content false)

/-- Makes a file executable. -/
def makeExecutable (t : FileTree) (path : String) : Except SystemError FileTree := do
  let place ← t.resolve path
  match t.get? place with
  | some (.file content _) => return t.insert place (.file content true)
  | some .directory => return t
  | none => throw .notFound

/-- Moves a file to another name, in place of the file that may be there. -/
def rename (t : FileTree) (source target : String) : Except SystemError FileTree := do
  let slot ← t.slot target
  if slot.name = "." ∨ slot.name = ".." then throw .busy
  checkName slot.name
  let place ← t.resolve source
  match t.get? place with
  | some (.file content executable) =>
    if slot.slashed then throw .notDirectory
    if t.get? slot.place = some .directory then throw .isDirectory
    return (t.erase place).insert slot.place (.file content executable)
  | some .directory => throw .isDirectory
  | none => throw .notFound

/-- Removes a file, if there is one. -/
def removeFile (t : FileTree) (path : String) : FileTree :=
  match t.resolve path with
  | .error _ => t
  | .ok place =>
    match t.get? place with
    | some (.file ..) => t.erase place
    | _ => t

/-! ### What `insert` and `erase` do to the entries -/

theorem lookup_put (place : Place) (e : Entry) (l : List (Place × Entry)) (other : Place) :
    (put place e l).lookup other = if other = place then some e else l.lookup other := by
  induction l with
  | nil =>
    by_cases h : other = place
    · rw [h, put, List.lookup_cons_self, if_pos rfl]
    · rw [put, List.lookup_cons, beq_false_of_ne h, if_neg h]
  | cons head rest ih =>
    obtain ⟨key, old⟩ := head
    by_cases hkey : key = place
    · subst hkey
      rw [put, if_pos rfl]
      by_cases h : other = key
      · rw [h, List.lookup_cons_self, if_pos rfl]
      · simp only [List.lookup_cons, beq_false_of_ne h, if_neg h]
    · rw [put, if_neg hkey]
      by_cases h : other = key
      · rw [h, List.lookup_cons_self, if_neg hkey, List.lookup_cons_self]
      · simp only [List.lookup_cons, beq_false_of_ne h, ih]

theorem get?_insert (t : FileTree) {place : Place} (h : place.names ≠ []) (e : Entry)
    (other : Place) :
    (t.insert place e).get? other = if other = place then some e else t.get? other := by
  by_cases hother : other.names = []
  · have hne : other ≠ place := fun heq => h (heq ▸ hother)
    simp [get?, hother, hne]
  · simp [get?, insert, hother, lookup_put]

theorem filter_put {place : Place} {e : Entry} {l : List (Place × Entry)}
    (h : l.lookup place = none) : (put place e l).filter (·.1 ≠ place) = l := by
  induction l with
  | nil => simp [put]
  | cons head rest ih =>
    obtain ⟨key, old⟩ := head
    by_cases hkey : key = place
    · subst hkey
      rw [List.lookup_cons_self] at h
      contradiction
    · have hne : place ≠ key := fun heq => hkey heq.symm
      simp only [List.lookup_cons, beq_false_of_ne hne] at h
      simp only [put, hkey, if_false, List.filter_cons, ne_eq, not_false_eq_true, decide_true,
        if_true]
      exact congrArg _ (ih h)

/-- Removing an entry that was new gives the tree back. -/
theorem erase_insert (t : FileTree) {place : Place} (hn : place.names ≠ [])
    (h : t.get? place = none) (e : Entry) : (t.insert place e).erase place = t := by
  have hl : t.entries.lookup place = none := by simpa [get?, hn] using h
  simp only [erase, insert]
  rw [filter_put hl]

end FileTree

end Brainfuck
