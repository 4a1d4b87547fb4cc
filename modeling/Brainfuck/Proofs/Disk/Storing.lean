import Brainfuck.Proofs.Artifact.RoundTrip
import Brainfuck.Proofs.Disk.Calls
import Brainfuck.Proofs.Disk.Following

set_option autoImplicit false

/-! # Storing all or nothing

An artifact is prepared in a hidden file, and as long as it is not renamed to the output the tree
differs from what it was by this file alone (`FileTree.Prepared`). Whichever step fails, removing
the hidden file gives the tree back as it was; and if all steps go through, the output has changed
and nothing else. -/

namespace Brainfuck

theorem StoreFaults.eq_none {faults : StoreFaults} (hwrite : faults.write = none)
    (hmode : faults.mode = none) (hrename : faults.rename = none) : faults = {} := by
  cases faults
  cases hwrite
  cases hmode
  cases hrename
  rfl

namespace FileTree

variable {t t' : FileTree} {path hidden output tag : String} {content : List UInt8}
  {executable : Bool} {s : Slot}

/-! ## Files in a tree -/

theorem put_put (place : Place) (e e' : Entry) (l : List (Place × Entry)) :
    put place e' (put place e l) = put place e' l := by
  induction l with
  | nil => simp [put]
  | cons head rest ih =>
      obtain ⟨key, old⟩ := head
      by_cases hkey : key = place
      · simp [put, hkey]
      · simp [put, hkey, ih]

theorem insert_insert (t : FileTree) (place : Place) (e e' : Entry) :
    (t.insert place e).insert place e' = t.insert place e' := by
  simp only [insert, put_put]

theorem Slot.names_place_ne_nil (s : Slot) : s.place.names ≠ [] :=
  Place.names_child_ne_nil s.name s.directory

theorem get?_insert_place (t : FileTree) (s : Slot) (e : Entry) :
    (t.insert s.place e).get? s.place = some e := by
  rw [get?_insert t s.names_place_ne_nil, if_pos rfl]

theorem keepsDirectories_insert (h : t.get? s.place ≠ some .directory) (e : Entry) :
    KeepsDirectories t (t.insert s.place e) := by
  intro place hplace
  have hne : place ≠ s.place := by
    rintro rfl
    exact h hplace
  rw [get?_insert t s.names_place_ne_nil, if_neg hne]
  exact hplace

theorem keepsDirectories_of_insert_file (t : FileTree) (s : Slot) (content : List UInt8)
    (executable : Bool) :
    KeepsDirectories (t.insert s.place (.file content executable)) t := by
  intro place hplace
  rw [get?_insert t s.names_place_ne_nil] at hplace
  split at hplace
  · cases hplace
  · exact hplace

/-- A file can be written under the path. -/
def Accepts (t : FileTree) (path : String) : Prop :=
  ∃ s, t.slot path = .ok s ∧ s.Fits ∧ t.get? s.place ≠ some .directory

/-- `t'` is `t` with the file under the path, in place of the one that may have been there. -/
def Receives (t : FileTree) (path : String) (content : List UInt8) (executable : Bool)
    (t' : FileTree) : Prop :=
  ∃ s, t.slot path = .ok s ∧ s.Fits ∧ t.get? s.place ≠ some .directory ∧
    t' = t.insert s.place (.file content executable)

theorem Receives.accepts (h : t.Receives path content executable t') : t.Accepts path := by
  obtain ⟨s, hslot, hfits, hdir, -⟩ := h
  exact ⟨s, hslot, hfits, hdir⟩

theorem Accepts.exists_receives (h : t.Accepts path) (content : List UInt8) (executable : Bool) :
    ∃ t', t.Receives path content executable t' := by
  obtain ⟨s, hslot, hfits, hdir⟩ := h
  exact ⟨_, s, hslot, hfits, hdir, rfl⟩

theorem accepts_of_writeFile (h : t.writeFile path content = .ok t') : t.Accepts path := by
  simp only [writeFile, bind_eq_ok_iff, unless_eq_ok_iff, not_or] at h
  obtain ⟨s, hslot, ⟨hslashed, hdot, hup⟩, ⟨⟩, hshort, hwritten⟩ := h
  refine ⟨s, hslot, ⟨by simpa using hslashed, hdot, hup, hshort⟩, ?_⟩
  intro hdir
  rw [hdir] at hwritten
  contradiction

theorem rename_eq_ok_iff {source target : String} :
    t.rename source target = .ok t' ↔
      ∃ s place content executable, t.slot target = .ok s ∧ s.Fits ∧
        t.get? s.place ≠ some .directory ∧ t.resolve source = .ok place ∧
        t.get? place = some (.file content executable) ∧
        t' = (t.erase place).insert s.place (.file content executable) := by
  simp only [rename, bind_eq_ok_iff, unless_eq_ok_iff, not_or]
  constructor
  · rintro ⟨s, hslot, ⟨hdot, hup⟩, ⟨⟩, hshort, place, hresolve, hmoved⟩
    split at hmoved
    · next content executable hget =>
      simp only [unless_eq_ok_iff] at hmoved
      obtain ⟨hslashed, hdir, hmoved⟩ := hmoved
      cases hmoved
      exact ⟨s, place, content, executable, hslot, ⟨by simpa using hslashed, hdot, hup, hshort⟩,
        hdir, hresolve, hget, rfl⟩
    · contradiction
    · contradiction
  · rintro ⟨s, place, content, executable, hslot, hfits, hdir, hresolve, hget, rfl⟩
    refine ⟨s, hslot, ⟨hfits.notDot, hfits.notUp⟩, (), hfits.short, place, hresolve, ?_⟩
    simp only [hget, unless_eq_ok_iff]
    exact ⟨by simp [hfits.notSlashed], hdir, rfl⟩

/-- Nothing stands under the path. -/
def Vacant (t : FileTree) (path : String) : Prop :=
  ∃ e, t.resolve path = .error e

theorem Vacant.removeFile (h : t.Vacant path) : t.removeFile path = t := by
  obtain ⟨e, he⟩ := h
  simp only [FileTree.removeFile, he]

/-! ## The hidden file -/

/-- A slot for a file that is not there yet. -/
structure Prepared (t : FileTree) (path : String) (s : Slot) : Prop where
  slot : t.slot path = .ok s
  fits : s.Fits
  new : t.get? s.place = none

theorem Vacant.prepared (h : t.Vacant path) (hslot : t.slot path = .ok s) (hfits : s.Fits) :
    t.Prepared path s := by
  refine ⟨hslot, hfits, ?_⟩
  cases hentry : t.get? s.place with
  | none => rfl
  | some entry =>
      obtain ⟨e, he⟩ := h
      rw [resolve_of_slot hslot hfits (by rw [hentry]; rfl)] at he
      contradiction

namespace Prepared

theorem keeps (h : t.Prepared path s) (e : Entry) : KeepsDirectories t (t.insert s.place e) :=
  keepsDirectories_insert (by rw [h.new]; simp) e

theorem resolve_insert (h : t.Prepared path s) (e : Entry) :
    (t.insert s.place e).resolve path = .ok s.place := by
  refine resolve_of_slot (slot_of_keepsDirectories (h.keeps e) h.slot) h.fits ?_
  rw [get?_insert_place]
  rfl

theorem removeFile_insert (h : t.Prepared path s) (content : List UInt8) (executable : Bool) :
    (t.insert s.place (.file content executable)).removeFile path = t := by
  simp only [removeFile, h.resolve_insert, get?_insert_place]
  exact erase_insert t s.names_place_ne_nil h.new _

theorem makeExecutable_insert (h : t.Prepared path s) (content : List UInt8)
    (executable : Bool) :
    (t.insert s.place (.file content executable)).makeExecutable path
      = .ok (t.insert s.place (.file content true)) := by
  simp only [makeExecutable, h.resolve_insert, bind, Except.bind, get?_insert_place]
  rw [insert_insert]
  rfl

theorem writeFile_eq (h : t.Prepared path s) (content : List UInt8) :
    t.writeFile path content = .ok (t.insert s.place (.file content false)) := by
  simp [writeFile, bind, Except.bind, h.slot, h.fits.notSlashed, h.fits.notDot, h.fits.notUp,
    h.fits.short, h.new, pure, Except.pure]

/-- The hidden file becomes the output as it would have been written there at once. -/
theorem rename_insert_iff (h : t.Prepared hidden s) :
    (t.insert s.place (.file content executable)).rename hidden output = .ok t' ↔
      t.Receives output content executable t' := by
  have hto := h.keeps (.file content executable)
  have hback := keepsDirectories_of_insert_file t s content executable
  rw [rename_eq_ok_iff]
  constructor
  · rintro ⟨s', place, content', executable', hslot, hfits, hdir, hresolve, hget, rfl⟩
    rw [h.resolve_insert] at hresolve
    cases hresolve
    rw [get?_insert_place] at hget
    cases hget
    refine ⟨s', slot_of_keepsDirectories hback hslot, hfits, fun hdir' => hdir (hto _ hdir'), ?_⟩
    rw [erase_insert t s.names_place_ne_nil h.new]
  · rintro ⟨s', hslot, hfits, hdir, rfl⟩
    refine ⟨s', s.place, content, executable, slot_of_keepsDirectories hto hslot, hfits,
      fun hdir' => hdir (hback _ hdir'), h.resolve_insert _, get?_insert_place _ _ _, ?_⟩
    rw [erase_insert t s.names_place_ne_nil h.new]

end Prepared

theorem Vacant.writeFile_eq_ok_iff (h : t.Vacant path) :
    t.writeFile path content = .ok t' ↔
      ∃ s, t.Prepared path s ∧ t' = t.insert s.place (.file content false) := by
  constructor
  · intro hwrite
    obtain ⟨s, hslot, hfits, -⟩ := accepts_of_writeFile hwrite
    have hs := h.prepared hslot hfits
    rw [hs.writeFile_eq] at hwrite
    cases hwrite
    exact ⟨s, hs, rfl⟩
  · rintro ⟨s, hs, rfl⟩
    exact hs.writeFile_eq content

theorem Vacant.exists_prepared_iff (h : t.Vacant path) :
    (∃ s, t.Prepared path s) ↔ t.Accepts path := by
  constructor
  · rintro ⟨s, hs⟩
    exact ⟨s, hs.slot, hs.fits, by rw [hs.new]; simp⟩
  · rintro ⟨s, hslot, hfits, -⟩
    exact ⟨s, h.prepared hslot hfits⟩

/-! ## The three steps -/

section

variable {faults : StoreFaults} {e : SystemError}

theorem Vacant.storeContent_eq_ok_iff (h : t.Vacant hidden) :
    storeContent faults t hidden content = (.ok (), t') ↔
      faults.write = none ∧
        ∃ s, t.Prepared hidden s ∧ t' = t.insert s.place (.file content false) := by
  rw [← h.writeFile_eq_ok_iff]
  unfold storeContent
  split
  · next hnone => simp only [hnone, answer_eq_ok_iff, true_and]
  · next e hsome => simp [hsome]
  · next e reached hsome => cases t.writeFile hidden (content.take reached) <;> simp [hsome]

/-- However far a write that failed has come, it is undone. -/
theorem Vacant.removeFile_storeContent (h : t.Vacant hidden)
    (hstore : storeContent faults t hidden content = (.error e, t')) :
    t'.removeFile hidden = t := by
  unfold storeContent at hstore
  split at hstore
  · rw [eq_of_answer hstore]
    exact h.removeFile
  · cases hstore
    exact h.removeFile
  · split at hstore
    -- the one case in which there is a file to remove
    · next t₁ hwrite =>
      cases hstore
      obtain ⟨s, hs, rfl⟩ := h.writeFile_eq_ok_iff.1 hwrite
      exact hs.removeFile_insert _ _
    · cases hstore
      exact h.removeFile

theorem Prepared.storeMode_eq_ok_iff (h : t.Prepared hidden s) :
    storeMode faults (t.insert s.place (.file content executable)) hidden = (.ok (), t') ↔
      faults.mode = none ∧ t' = t.insert s.place (.file content true) := by
  unfold storeMode
  rw [h.makeExecutable_insert]
  cases faults.mode <;> simp [answer, eq_comm]

theorem eq_of_storeMode (hstore : storeMode faults t hidden = (.error e, t')) : t' = t := by
  unfold storeMode at hstore
  split at hstore
  · cases hstore
    rfl
  · exact eq_of_answer hstore

theorem Prepared.storeName_eq_ok_iff (h : t.Prepared hidden s) :
    storeName faults (t.insert s.place (.file content executable)) hidden output = (.ok (), t') ↔
      faults.rename = none ∧ t.Receives output content executable t' := by
  rw [← h.rename_insert_iff]
  unfold storeName
  cases faults.rename with
  | some e => simp
  | none => simp only [answer_eq_ok_iff, true_and]

theorem eq_of_storeName (hstore : storeName faults t hidden output = (.error e, t')) : t' = t := by
  unfold storeName at hstore
  split at hstore
  · cases hstore
    rfl
  · exact eq_of_answer hstore

end

/-! ## All steps together -/

variable {faults : StoreFaults} {e : ArtifactError}

theorem Vacant.persist_eq_ok_iff (h : t.Vacant hidden) :
    ((system faults).persist hidden output content).run t = (.ok (), t') ↔
      faults = {} ∧ t.Accepts hidden ∧ t.Receives output content true t' := by
  rw [← h.exists_prepared_iff, run_persist]
  constructor
  · intro hpersist
    split at hpersist
    · cases hpersist
    · next t₁ hcontent =>
      obtain ⟨hwrite, s, hs, rfl⟩ := h.storeContent_eq_ok_iff.1 hcontent
      split at hpersist
      · cases hpersist
      · next t₂ hmode =>
        obtain ⟨hexecutable, rfl⟩ := hs.storeMode_eq_ok_iff.1 hmode
        split at hpersist
        · cases hpersist
        · next t₃ hname =>
          cases hpersist
          obtain ⟨hrename, hreceives⟩ := hs.storeName_eq_ok_iff.1 hname
          exact ⟨StoreFaults.eq_none hwrite hexecutable hrename, ⟨s, hs⟩, hreceives⟩
  · rintro ⟨rfl, ⟨s, hs⟩, hreceives⟩
    have hcontent : storeContent {} t hidden content
        = (.ok (), t.insert s.place (.file content false)) :=
      h.storeContent_eq_ok_iff.2 ⟨rfl, s, hs, rfl⟩
    have hmode : storeMode {} (t.insert s.place (.file content false)) hidden
        = (.ok (), t.insert s.place (.file content true)) :=
      hs.storeMode_eq_ok_iff.2 ⟨rfl, rfl⟩
    have hname : storeName {} (t.insert s.place (.file content true)) hidden output
        = (.ok (), t') :=
      hs.storeName_eq_ok_iff.2 ⟨rfl, hreceives⟩
    simp only [hcontent, hmode, hname]

/-- Whichever step fails, the hidden file is all there is to remove. -/
theorem Vacant.removeFile_persist (h : t.Vacant hidden)
    (hpersist : ((system faults).persist hidden output content).run t = (.error e, t')) :
    t'.removeFile hidden = t := by
  rw [run_persist] at hpersist
  split at hpersist
  · next e₁ t₁ hcontent =>
    cases hpersist
    exact h.removeFile_storeContent hcontent
  · next t₁ hcontent =>
    obtain ⟨-, s, hs, rfl⟩ := h.storeContent_eq_ok_iff.1 hcontent
    split at hpersist
    · next e₂ t₂ hmode =>
      cases hpersist
      rw [eq_of_storeMode hmode, hs.removeFile_insert]
    · next t₂ hmode =>
      obtain ⟨-, rfl⟩ := hs.storeMode_eq_ok_iff.1 hmode
      split at hpersist
      · next e₃ t₃ hname =>
        cases hpersist
        rw [eq_of_storeName hname, hs.removeFile_insert]
      · cases hpersist

/-! ## What is stored -/

/-- From `t` to `t'` the output alone has changed: it is now an executable file that holds the
    program, and the program can be read back from it. (The number of instructions is written as a
    word, and so has to be one, as it is for any list in memory.) -/
def Stored (t : FileTree) (output : String) (p : Program) (t' : FileTree) : Prop :=
  ∃ place, t'.resolve output = .ok place ∧
    t'.get? place = some (.file (Artifact.encode p) true) ∧
    (∀ other, other ≠ place → t'.get? other = t.get? other) ∧
    (p.ops.size < UInt64.size → t'.readArtifact output = .ok p)

theorem readFile_of_resolve {place : Place} (hresolve : t.resolve path = .ok place)
    (hget : t.get? place = some (.file content executable)) : t.readFile path = .ok content := by
  simp only [readFile, hresolve, bind, Except.bind, hget]
  rfl

theorem Receives.stored {p : Program} (h : t.Receives output (Artifact.encode p) true t') :
    t.Stored output p t' := by
  obtain ⟨s, hslot, hfits, hdir, rfl⟩ := h
  have hget := get?_insert_place t s (.file (Artifact.encode p) true)
  have hresolve : (t.insert s.place (.file (Artifact.encode p) true)).resolve output
      = .ok s.place := by
    refine resolve_of_slot (slot_of_keepsDirectories (keepsDirectories_insert hdir _) hslot)
      hfits ?_
    rw [hget]
    rfl
  refine ⟨s.place, hresolve, hget, ?_, ?_⟩
  · intro other hother
    rw [get?_insert t s.names_place_ne_nil, if_neg hother]
  · intro hsize
    simp only [readArtifact_eq, readFile_of_resolve hresolve hget, Artifact.decode_encode hsize]

/-- Nothing stands under the hidden name in which the output would be prepared. -/
def TagUnused (t : FileTree) (tag output : String) : Prop :=
  ∀ name, Path.fileName? output = some name → t.Vacant (FileSystem.hiddenPath output name tag)

theorem tagUnused_of_vacant {name : String} (hname : Path.fileName? output = some name)
    (h : t.Vacant (FileSystem.hiddenPath output name tag)) : t.TagUnused tag output := by
  intro name' hname'
  cases hname.symm.trans hname'
  exact h

/-- The output has a name, and files can be written under it and under its hidden name. -/
def Storable (t : FileTree) (tag output : String) : Prop :=
  ∃ name, Path.fileName? output = some name ∧
    t.Accepts (FileSystem.hiddenPath output name tag) ∧ t.Accepts output

theorem TagUnused.eq_of_writeArtifact {p : Program} (h : t.TagUnused tag output)
    (hwrite : t.writeArtifact faults tag p output = (.error e, t')) : t' = t := by
  rw [writeArtifact_eq] at hwrite
  split at hwrite
  · cases hwrite
    rfl
  · next name hname =>
    dsimp only at hwrite
    split at hwrite
    · cases hwrite
    · next e₁ t₁ hpersist =>
      cases hwrite
      exact (h name hname).removeFile_persist hpersist

theorem TagUnused.writeArtifact_eq_ok_iff {p : Program} (h : t.TagUnused tag output) :
    t.writeArtifact faults tag p output = (.ok (), t') ↔
      faults = {} ∧ t.Storable tag output ∧ t.Receives output (Artifact.encode p) true t' := by
  constructor
  · intro hwrite
    rw [writeArtifact_eq] at hwrite
    split at hwrite
    · cases hwrite
    · next name hname =>
      dsimp only at hwrite
      split at hwrite
      · next t₁ hpersist =>
        cases hwrite
        obtain ⟨hfaults, hhidden, hreceives⟩ := (h name hname).persist_eq_ok_iff.1 hpersist
        exact ⟨hfaults, ⟨name, hname, hhidden, hreceives.accepts⟩, hreceives⟩
      · cases hwrite
  · rintro ⟨rfl, ⟨name, hname, hhidden, -⟩, hreceives⟩
    have hpersist := (h name hname).persist_eq_ok_iff.2 ⟨rfl, hhidden, hreceives⟩
    simp only [writeArtifact_eq, hname, hpersist]

/-- Whether a program can be stored does not depend on the program. -/
theorem TagUnused.exists_writeArtifact_iff (h : t.TagUnused tag output) (p : Program) :
    (∃ t', t.writeArtifact faults tag p output = (.ok (), t')) ↔
      faults = {} ∧ t.Storable tag output := by
  constructor
  · rintro ⟨t', hwrite⟩
    obtain ⟨hfaults, hstorable, -⟩ := h.writeArtifact_eq_ok_iff.1 hwrite
    exact ⟨hfaults, hstorable⟩
  · rintro ⟨hfaults, hstorable⟩
    obtain ⟨name, hname, hhidden, houtput⟩ := hstorable
    obtain ⟨t', hreceives⟩ := houtput.exists_receives (Artifact.encode p) true
    exact ⟨t', h.writeArtifact_eq_ok_iff.2
      ⟨hfaults, ⟨name, hname, hhidden, houtput⟩, hreceives⟩⟩

/-- `compileFile` answers with a program only through `writeArtifact`. -/
theorem compileFile_eq_ok_iff {options : CompileOptions} {input : String} {p : Program} :
    t.compileFile faults tag options input output = (.ok p, t') ↔
      (∃ source, t.readSource input = .ok source ∧ Program.compile options source = .ok p) ∧
        t.writeArtifact faults tag p output = (.ok (), t') := by
  constructor
  · intro hcompile
    rw [compileFile_eq] at hcompile
    split at hcompile
    · cases hcompile
    · next source hsource =>
      split at hcompile
      · cases hcompile
      · next p' hp =>
        split at hcompile
        · cases hcompile
        · next t₁ hwrite =>
          cases hcompile
          exact ⟨⟨source, hsource, hp⟩, hwrite⟩
  · rintro ⟨⟨source, hsource, hp⟩, hwrite⟩
    simp only [compileFile_eq, hsource, hp, hwrite]

theorem TagUnused.eq_of_compileFile {options : CompileOptions} {input : String} {e : Error}
    (h : t.TagUnused tag output)
    (hcompile : t.compileFile faults tag options input output = (.error e, t')) : t' = t := by
  rw [compileFile_eq] at hcompile
  split at hcompile
  · cases hcompile
    rfl
  · split at hcompile
    · cases hcompile
      rfl
    · split at hcompile
      · next e₁ t₁ hwrite =>
        cases hcompile
        exact h.eq_of_writeArtifact hwrite
      · cases hcompile

/-! ## All or nothing -/

/-- Whatever fails on the way from a source file to a stored program, the tree is afterwards what it
    was before; and if nothing fails, the output alone has changed. Nothing fails but what has to:
    a source that is no text or no program, an output that cannot be written, and the system. -/
theorem compileFile_all_or_nothing (t : FileTree) (faults : StoreFaults) (tag output : String)
    (hunused : t.TagUnused tag output) :
    (∀ options input, match t.compileFile faults tag options input output with
      | (.error _, t') => t' = t
      | (.ok p, t') => (∃ source, t.readSource input = .ok source ∧
          Program.compile options source = .ok p) ∧ t.Stored output p t') ∧
    (∀ p, match t.writeArtifact faults tag p output with
      | (.error _, t') => t' = t
      | (.ok (), t') => t.Stored output p t') ∧
    (∀ options input p, (∃ t', t.compileFile faults tag options input output = (.ok p, t')) ↔
      (∃ source, t.readSource input = .ok source ∧ Program.compile options source = .ok p) ∧
        faults = {} ∧ t.Storable tag output) ∧
    (∀ p, (∃ t', t.writeArtifact faults tag p output = (.ok (), t')) ↔
      faults = {} ∧ t.Storable tag output) := by
  refine ⟨?_, ?_, ?_, fun p => hunused.exists_writeArtifact_iff p⟩
  · intro options input
    split
    · next e t' hcompile => exact hunused.eq_of_compileFile hcompile
    · next p t' hcompile =>
      obtain ⟨hsource, hwrite⟩ := compileFile_eq_ok_iff.1 hcompile
      exact ⟨hsource, (hunused.writeArtifact_eq_ok_iff.1 hwrite).2.2.stored⟩
  · intro p
    split
    · next e t' hwrite => exact hunused.eq_of_writeArtifact hwrite
    · next t' hwrite => exact (hunused.writeArtifact_eq_ok_iff.1 hwrite).2.2.stored
  · intro options input p
    simp only [compileFile_eq_ok_iff, exists_and_left, hunused.exists_writeArtifact_iff]

/-- A source beside an earlier output, which a full disk leaves as it is and a second attempt
    replaces. -/
theorem compileFile_all_or_nothing_overwrite :
    let t : FileTree := ⟨[(.relative 0 ["a.bf"], .file [0x2b, 0x2e] false),
      (.relative 0 ["a"], .file [0x01] true)]⟩
    let full : StoreFaults := { write := some (.other "No space left on device", some 3) }
    let p : Program := ⟨30000, 0, false, #[.addCell 1, .write, .halt]⟩
    t.TagUnused "7.0" "a" ∧ (t.compileFile full "7.0" {} "a.bf" "a").2 = t ∧
      ∃ t', t.compileFile {} "7.0" {} "a.bf" "a" = (.ok p, t') ∧ t.Stored "a" p t' := by
  intro t full p
  have hfile : Path.fileName? "a" = some "a" := by decide +kernel
  have hunused : t.TagUnused "7.0" "a" :=
    tagUnused_of_vacant hfile ⟨.notFound, by decide +kernel⟩
  refine ⟨hunused, ?_, ?_⟩
  · obtain ⟨hall, -, hsucceeds, -⟩ := compileFile_all_or_nothing t full "7.0" "a" hunused
    have hleft := hall {} "a.bf"
    split at hleft
    · next e t' hrun => rw [hrun, hleft]
    · next p' t' hrun => exact absurd ((hsucceeds {} "a.bf" p').1 ⟨t', hrun⟩).2.1 (by decide)
  · have hstorable : t.Storable "7.0" "a" := by
      have hhidden : t.slot (FileSystem.hiddenPath "a" "a" "7.0")
          = .ok ⟨.relative 0 [], ".a.7.0.tmp", false⟩ :=
        slot_eq_ok_iff.2 (by decide +kernel)
      have houtput : t.slot "a" = .ok ⟨.relative 0 [], "a", false⟩ :=
        slot_eq_ok_iff.2 (by decide +kernel)
      exact ⟨"a", hfile,
        ⟨_, hhidden, ⟨rfl, by decide, by decide, by decide +kernel⟩, by decide +kernel⟩,
        ⟨_, houtput, ⟨rfl, by decide, by decide, by decide +kernel⟩, by decide +kernel⟩⟩
    obtain ⟨hall, -, hsucceeds, -⟩ := compileFile_all_or_nothing t {} "7.0" "a" hunused
    have hsource : t.readSource "a.bf" = .ok "+." := readSource_eq_ok_iff.2 rfl
    have hcompile : Program.compile {} "+." = .ok p := rfl
    obtain ⟨t', hrun⟩ := (hsucceeds {} "a.bf" p).2 ⟨⟨"+.", hsource, hcompile⟩, rfl, hstorable⟩
    have hstored := hall {} "a.bf"
    rw [hrun] at hstored
    exact ⟨t', hrun, hstored.2⟩

end FileTree

end Brainfuck
