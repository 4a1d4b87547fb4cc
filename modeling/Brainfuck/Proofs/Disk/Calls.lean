import Brainfuck.Disk.Store

set_option autoImplicit false

/-! # Calls on a tree, one after the other

What is done with files is written down once for every file system. On a tree it comes to a case
distinction: a call either goes through, and what follows finds the tree as the call has left it, or
it is refused, and nothing follows but what is done about the refusal. -/

namespace Brainfuck

section

variable {σ ε ε' α β : Type}

theorem run_bind (x : ExceptT ε (StateM σ) α) (f : α → ExceptT ε (StateM σ) β) (s : σ) :
    (x >>= f).run s = match x.run s with
      | (.ok a, s) => (f a).run s
      | (.error e, s) => (.error e, s) := by
  show ExceptT.bindCont f (x.run s).1 (x.run s).2 = _
  rcases x.run s with ⟨e | a, s₁⟩ <;> rfl

theorem run_adapt (f : ε → ε') (x : ExceptT ε (StateM σ) α) (s : σ) :
    (x.adapt f).run s = match x.run s with
      | (.ok a, s) => (.ok a, s)
      | (.error e, s) => (.error (f e), s) := by
  show ((x.run s).1.mapError f, (x.run s).2) = _
  rcases x.run s with ⟨e | a, s₁⟩ <;> rfl

theorem run_tryCatch (x : ExceptT ε (StateM σ) α) (handle : ε → ExceptT ε (StateM σ) α) (s : σ) :
    (tryCatch x handle).run s = match x.run s with
      | (.ok a, s) => (.ok a, s)
      | (.error e, s) => (handle e).run s := by
  show (match (x.run s).1 with
    | .ok a => pure (.ok a)
    | .error e => handle e : StateM σ (Except ε α)) (x.run s).2 = _
  rcases x.run s with ⟨e | a, s₁⟩ <;> rfl

end

theorem fromUTF8?_eq_some_iff {bytes : ByteArray} {text : String} :
    String.fromUTF8? bytes = some text ↔ bytes = text.toUTF8 := by
  unfold String.fromUTF8?
  split
  · rw [Option.some.injEq, ← String.toByteArray_inj]
    rfl
  · next hinvalid =>
    constructor
    · intro hnone
      contradiction
    · rintro rfl
      exact absurd text.isValidUTF8 hinvalid

namespace FileTree

/-! ## Single calls -/

section

variable {t t' : FileTree} {r : Except SystemError FileTree}

theorem answer_eq_ok_iff : t.answer r = (.ok (), t') ↔ r = .ok t' := by
  cases r <;> simp [answer]

/-- A call that is refused leaves the tree as it is. -/
theorem eq_of_answer {e : SystemError} (h : t.answer r = (.error e, t')) : t' = t := by
  cases r with
  | error e' =>
      cases h
      rfl
  | ok t₁ => cases h

end

/-! ## Reading

Reading leaves the tree as it is, whatever the system has in store for other calls. -/

section

variable (faults : StoreFaults) (t : FileTree) (path : String)

theorem run_readSource_eq :
    ((system faults).readSource path).run t = (match t.readFile path with
      | .error e => .error (.source path e)
      | .ok bytes =>
        match String.fromUTF8? ⟨bytes.toArray⟩ with
        | some text => .ok text
        | none => .error (.source path .notText), t) := by
  simp only [FileSystem.readSource, run_bind, run_adapt, system, ExceptT.run_mk]
  cases t.readFile path with
  | error e => rfl
  | ok bytes =>
      dsimp only
      cases String.fromUTF8? ⟨bytes.toArray⟩ <;> rfl

theorem readSource_eq :
    t.readSource path = match t.readFile path with
      | .error e => .error (.source path e)
      | .ok bytes =>
        match String.fromUTF8? ⟨bytes.toArray⟩ with
        | some text => .ok text
        | none => .error (.source path .notText) := by
  rw [readSource, run_readSource_eq]

theorem run_readSource : ((system faults).readSource path).run t = (t.readSource path, t) := by
  rw [run_readSource_eq, readSource_eq]

theorem run_readArtifact_eq :
    ((system faults).readArtifact path).run t = (match t.readFile path with
      | .error e => .error (.read path e)
      | .ok bytes =>
        match Artifact.decode bytes with
        | .error e => .error (.format e)
        | .ok p => .ok p, t) := by
  simp only [FileSystem.readArtifact, run_bind, run_adapt, system, ExceptT.run_mk]
  cases t.readFile path with
  | error e => rfl
  | ok bytes =>
      dsimp only
      cases Artifact.decode bytes <;> rfl

theorem readArtifact_eq :
    t.readArtifact path = match t.readFile path with
      | .error e => .error (.read path e)
      | .ok bytes =>
        match Artifact.decode bytes with
        | .error e => .error (.format e)
        | .ok p => .ok p := by
  rw [readArtifact, run_readArtifact_eq]

theorem run_readArtifact :
    ((system faults).readArtifact path).run t = (t.readArtifact path, t) := by
  rw [run_readArtifact_eq, readArtifact_eq]

theorem run_compileSource (options : CompileOptions) :
    ((system faults).compileSource options path).run t = (match t.readSource path with
      | .error e => .error e
      | .ok text =>
        match Program.compile options text with
        | .error e => .error (.compile e)
        | .ok p => .ok p, t) := by
  simp only [FileSystem.compileSource, run_bind, run_readSource]
  cases t.readSource path with
  | error e => rfl
  | ok text =>
      dsimp only
      cases Program.compile options text <;> rfl

end

/-! ## Files that hold something -/

section

variable {t : FileTree} {path text : String} {p : Program}

/-- The file under the path is a text in UTF-8. -/
def HoldsText (t : FileTree) (path text : String) : Prop :=
  t.readFile path = .ok text.toUTF8.data.toList

/-- The file under the path is an artifact. -/
def HoldsProgram (t : FileTree) (path : String) (p : Program) : Prop :=
  ∃ bytes, t.readFile path = .ok bytes ∧ Artifact.decode bytes = .ok p

theorem readSource_eq_ok_iff : t.readSource path = .ok text ↔ t.HoldsText path text := by
  rw [readSource_eq, HoldsText]
  cases t.readFile path with
  | error e => simp
  | ok bytes =>
      have htext : bytes = text.toUTF8.data.toList ↔
          String.fromUTF8? ⟨bytes.toArray⟩ = some text := by
        rw [fromUTF8?_eq_some_iff, ByteArray.ext_iff, ← Array.toList_inj]
      rw [Except.ok.injEq, htext]
      dsimp only
      split <;> simp_all

theorem HoldsText.unique {text' : String} (h : t.HoldsText path text)
    (h' : t.HoldsText path text') : text = text' :=
  Except.ok.inj ((readSource_eq_ok_iff.2 h).symm.trans (readSource_eq_ok_iff.2 h'))

/-- An error in reading a source names its path. -/
theorem exists_cause_of_readSource {e : Error} (h : t.readSource path = .error e) :
    ∃ cause, e = .source path cause := by
  rw [readSource_eq] at h
  split at h
  · next cause hfile => exact ⟨cause, (Except.error.inj h).symm⟩
  · split at h
    · cases h
    · exact ⟨.notText, (Except.error.inj h).symm⟩

theorem readArtifact_eq_ok_iff : t.readArtifact path = .ok p ↔ t.HoldsProgram path p := by
  rw [readArtifact_eq]
  unfold HoldsProgram
  cases t.readFile path with
  | error e => simp
  | ok bytes =>
      simp only [Except.ok.injEq, exists_eq_left']
      cases Artifact.decode bytes <;> simp

end

/-! ## Storing -/

variable (faults : StoreFaults) (t : FileTree)

theorem run_persist (hidden output : String) (content : List UInt8) :
    ((system faults).persist hidden output content).run t
      = match t.storeContent faults hidden content with
        | (.error e, t) => (.error (.write hidden e), t)
        | (.ok (), t) =>
          match t.storeMode faults hidden with
          | (.error e, t) => (.error (.write hidden e), t)
          | (.ok (), t) =>
            match t.storeName faults hidden output with
            | (.error e, t) => (.error (.write output e), t)
            | (.ok (), t) => (.ok (), t) := by
  simp only [FileSystem.persist, run_bind, run_adapt, system, ExceptT.run_mk]
  rcases t.storeContent faults hidden content with ⟨e | _, t₁⟩
  · rfl
  · dsimp only
    rcases t₁.storeMode faults hidden with ⟨e | _, t₂⟩
    · rfl
    · dsimp only
      rcases t₂.storeName faults hidden output with ⟨e | _, t₃⟩ <;> rfl

theorem run_removeFile (path : String) :
    (liftM ((system faults).removeFile path) : ExceptT ArtifactError (StateM FileTree) Unit).run t
      = (.ok (), t.removeFile path) := rfl

theorem writeArtifact_eq (tag : String) (p : Program) (output : String) :
    t.writeArtifact faults tag p output = match Path.fileName? output with
      | none => (.error (.noFileName output), t)
      | some name =>
        let hidden := FileSystem.hiddenPath output name tag
        match ((system faults).persist hidden output (Artifact.encode p)).run t with
        | (.ok (), t) => (.ok (), t)
        | (.error e, t) => (.error e, t.removeFile hidden) := by
  unfold writeArtifact FileSystem.writeArtifact
  cases Path.fileName? output with
  | none => rfl
  | some name =>
      simp only [run_tryCatch, run_bind, run_removeFile]
      rcases ((system faults).persist _ output (Artifact.encode p)).run t with ⟨e | _, t₁⟩ <;> rfl

theorem compileFile_eq (tag : String) (options : CompileOptions) (input output : String) :
    t.compileFile faults tag options input output = match t.readSource input with
      | .error e => (.error e, t)
      | .ok source =>
        match Program.compile options source with
        | .error e => (.error (.compile e), t)
        | .ok p =>
          match t.writeArtifact faults tag p output with
          | (.error e, t) => (.error (.artifact e), t)
          | (.ok (), t) => (.ok p, t) := by
  simp only [compileFile, FileSystem.compileFile, run_bind, run_compileSource, run_adapt]
  cases t.readSource input with
  | error e => rfl
  | ok source =>
      dsimp only
      cases Program.compile options source with
      | error e => rfl
      | ok p =>
          dsimp only [writeArtifact]
          rcases ((system faults).writeArtifact tag p output).run t with ⟨e | _, t₁⟩ <;> rfl

end FileTree

end Brainfuck
