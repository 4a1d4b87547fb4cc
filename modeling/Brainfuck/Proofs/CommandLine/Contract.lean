import Brainfuck.CommandLine.Perform
import Brainfuck.Proofs.Bytecode.Diagnosis
import Brainfuck.Proofs.Disk.Storing

set_option autoImplicit false

/-! # How a process ends

The exit code tells what went wrong. `Fails` lists the ways to fail, each with its code: there is
nothing to do, a source is no text, its brackets do not match, an artifact can be neither loaded nor
stored, a run fails. A process ends with the code of the way that applies, and with 0 if none does;
only then, and only if it compiles to a file, are the files afterwards not what they were before
(`Contract`). Requests about a source differ in what they do with it but not in the order in which
they can fail, so all of them are read as one function first (`Arguments.treat`). -/

namespace Brainfuck

/-- The brackets of a source match. -/
def BracketsMatch (source : String) : Prop :=
  Bracket.Balanced ((Command.ofSource source).filterMap Command.bracket?)

theorem Program.exists_compile_iff {options : CompileOptions} {source : String}
    (hmemory : options.memorySize ≠ 0) (hlength : (Command.ofSource source).length < 2147483648) :
    (∃ p, compile options source = .ok p) ↔ BracketsMatch source := by
  rw [(verdict_compile options hlength).ok_iff, Run.map_fst_brackets,
    Run.flatMap_commands_ofSource]
  exact and_iff_right hmemory

namespace CommandLine

/-! ## Accepted arguments -/

theorem memorySize?_ne_zero (value : String) : memorySize? value ≠ some 0 := by
  intro h
  simp only [memorySize?, bind, Option.bind_eq_some_iff] at h
  obtain ⟨n, -, hn⟩ := h
  split at hn
  · next hrange =>
    have hzero : UInt64.ofNat n = 0 := Option.some.inj hn
    have hn := congrArg UInt64.toNat hzero
    rw [UInt64.toNat_ofNat_of_lt' hrange.2, UInt64.toNat_zero] at hn
    omega
  · cases hn

namespace Arguments

variable {a a' : Arguments}

def input? (a : Arguments) : Option String := a.files.head?

def output? (a : Arguments) : Option String := a.files[1]?

/-- What holds of all arguments that are accepted: there is some memory, and an artifact is run
    without any other task. -/
structure Acceptable (a : Arguments) : Prop where
  memorySize : a.memorySize ≠ some 0
  alone : a.run ≠ none → a.input? = none ∧ a.output? = none ∧ Switch.tokens ∉ a.switches ∧
    Switch.bytecode ∉ a.switches

/-- `a'` is `a` with one argument more. -/
inductive Extends (a a' : Arguments) : Prop
  | switch {s : Switch} (h : a.addSwitch? s = some a')
  | setting {s : Setting} {value : String} (h : a.set? s value = some a')
  | file {name : String} (h : a.addFile? name = some a')

theorem Extends.memorySize (h : a.Extends a') (hmemory : a.memorySize ≠ some 0) :
    a'.memorySize ≠ some 0 := by
  cases h with
  | switch h =>
      unfold addSwitch? at h
      split at h
      · cases h
      · cases h
        exact hmemory
  | @setting s value h =>
      unfold set? at h
      split at h
      · split at h
        · next n hn =>
          cases h
          exact hn ▸ memorySize?_ne_zero value
        · cases h
      · split at h
        · split at h
          · cases h
          · cases h
            exact hmemory
        · cases h
  | file h =>
      unfold addFile? at h
      split at h
      · cases h
      · cases h
        exact hmemory

theorem finish_eq_accepted_iff : a.finish = .accepted a' ↔ a' = a ∧ a.consistent = true := by
  unfold finish
  split
  · next h => simp [h, eq_comm]
  · next h => simp [h]

theorem accepted_of_readFiles {names : List String} (h : a.memorySize ≠ some 0)
    (hread : a.readFiles names = .accepted a') :
    a'.memorySize ≠ some 0 ∧ a'.consistent = true := by
  induction names generalizing a with
  | nil =>
      obtain ⟨rfl, hconsistent⟩ := finish_eq_accepted_iff.1 hread
      exact ⟨h, hconsistent⟩
  | cons name names ih =>
      rw [readFiles] at hread
      split at hread
      · next a₁ hfile => exact ih ((Extends.file hfile).memorySize h) hread
      · cases hread

theorem accepted_of_read {arguments : List String} (h : a.memorySize ≠ some 0)
    (hread : a.read arguments = .accepted a') :
    a'.memorySize ≠ some 0 ∧ a'.consistent = true := by
  fun_induction Arguments.read a arguments with
  | case1 a =>
      obtain ⟨rfl, hconsistent⟩ := finish_eq_accepted_iff.1 hread
      exact ⟨h, hconsistent⟩
  | case2 => exact accepted_of_readFiles h hread
  | case5 a argument rest flag _ _ name s _ a₁ hswitch _ ih =>
      exact ih ((Extends.switch hswitch).memorySize h) hread
  | case7 a argument rest flag _ _ name s value _ a₁ hset _ ih =>
      exact ih ((Extends.setting hset).memorySize h) hread
  | case10 a argument flag _ _ name s _ value rest _ a₁ hset _ ih =>
      exact ih ((Extends.setting hset).memorySize h) hread
  | case17 a argument rest a₁ hfile _ _ _ _ _ ih =>
      exact ih ((Extends.file hfile).memorySize h) hread
  | _ => cases hread

theorem acceptable_of_parse {arguments : List String} (h : parse arguments = .accepted a) :
    a.Acceptable := by
  obtain ⟨hmemory, hconsistent⟩ := accepted_of_read (by decide) h
  refine ⟨hmemory, ?_⟩
  intro hrun
  simp only [consistent, Bool.or_eq_true, Bool.and_eq_true, Bool.not_eq_true',
    Option.isNone_iff_eq_none, List.isEmpty_iff, List.contains_eq_mem, decide_eq_false_iff_not]
    at hconsistent
  rcases hconsistent with hnone | ⟨⟨hfiles, htokens⟩, hbytecode⟩
  · exact absurd hnone hrun
  · exact ⟨by rw [input?, hfiles]; rfl, by rw [output?, hfiles]; rfl, htokens, hbytecode⟩

/-! ## What is asked -/

theorem has_iff {s : Switch} : a.has s = true ↔ s ∈ a.switches := List.contains_iff_mem

theorem has_eq_false_iff {s : Switch} : a.has s = false ↔ s ∉ a.switches := by
  rw [← Bool.not_eq_true, has_iff]

/-- The options that the arguments give for a program. -/
structure Gives (a : Arguments) (options : CompileOptions) : Prop where
  memorySize : options.memorySize = a.memorySize.getD defaultMemorySize
  boundsCheck : options.boundsCheck = true ↔ Switch.boundsCheck ∈ a.switches
  policy : options.policy = .filtered ↔ Switch.filteredRuns ∈ a.switches

theorem gives_options (a : Arguments) : a.Gives a.options where
  memorySize := rfl
  boundsCheck := has_iff
  policy := by
    rw [← has_iff]
    show (if a.has .filteredRuns then RunPolicy.filtered else .adjacent) = .filtered ↔ _
    cases a.has .filteredRuns <;> decide

theorem Gives.eq_options {options : CompileOptions} (h : a.Gives options) :
    options = a.options := by
  obtain ⟨⟨memorySize, boundsCheck⟩, policy⟩ := options
  have hmemory : memorySize = a.options.memorySize := h.memorySize
  have hbounds : boundsCheck = a.options.boundsCheck :=
    Bool.eq_iff_iff.2 (h.boundsCheck.trans a.gives_options.boundsCheck.symm)
  have hpolicy : policy = .filtered ↔ a.options.policy = .filtered :=
    h.policy.trans a.gives_options.policy.symm
  have hsame : policy = a.options.policy := by
    cases hp : policy <;> cases ho : a.options.policy <;> simp_all
  rw [hmemory, hbounds, hsame]

theorem memorySize_options_ne_zero (h : a.memorySize ≠ some 0) : a.options.memorySize ≠ 0 := by
  show a.memorySize.getD defaultMemorySize ≠ 0
  cases hsize : a.memorySize with
  | none => decide
  | some n =>
      rw [hsize] at h
      exact fun hzero => h (congrArg some hzero)

/-- Nothing is to be done: there is neither an artifact to run nor a source, or nothing is asked of
    the source. -/
def AsksNothing (a : Arguments) : Prop :=
  a.run = none ∧ (a.input? = none ∨
    Switch.tokens ∉ a.switches ∧ a.output? = none ∧ Switch.bytecode ∉ a.switches)

/-- Something is to be done with this source. -/
def AsksFor (a : Arguments) (source : String) : Prop :=
  a.run = none ∧ a.input? = some source ∧
    (Switch.tokens ∈ a.switches ∨ a.output? ≠ none ∨ Switch.bytecode ∈ a.switches)

theorem asks_cases (a : Arguments) :
    a.AsksNothing ∨ (∃ artifact, a.run = some artifact) ∨ ∃ source, a.AsksFor source := by
  unfold AsksNothing AsksFor
  cases a.run with
  | some artifact => exact .inr (.inl ⟨artifact, rfl⟩)
  | none =>
      cases a.input? with
      | none => exact .inl ⟨rfl, .inl rfl⟩
      | some source =>
          by_cases htask : Switch.tokens ∈ a.switches ∨ a.output? ≠ none ∨
              Switch.bytecode ∈ a.switches
          · exact .inr (.inr ⟨source, rfl, rfl, htask⟩)
          · simp only [not_or, not_not] at htask
            exact .inl ⟨rfl, .inr htask⟩

/-- What is done with a source, whatever the task: it is read; it is reported, or else compiled; and
    the program is listed, or else stored. -/
def treat (a : Arguments) (w : Surroundings) (source : String) : Exit :=
  match w.tree.readSource source with
  | .error e => .failure w.tree [] e
  | .ok text =>
    if Switch.tokens ∈ a.switches then
      .success w.tree (reportText a.policy a.style text).toUTF8.toList
    else
      match Program.compile a.options text with
      | .error e => .failure w.tree [] (.compile e)
      | .ok p =>
        match a.output? with
        | none => .success w.tree p.listing.toUTF8.toList
        | some output =>
          match w.tree.writeArtifact w.faults w.tag p output with
          | (.error e, tree) => .failure tree [] (.artifact e)
          | (.ok (), tree) =>
            .success tree (if a.has .bytecode then p.listing else "").toUTF8.toList

end Arguments

variable {a : Arguments} {w : Surroundings} {fuel : Nat} {source output artifact text : String}

/-! ## What is done -/

theorem perform_of_request_error {e : Error} (h : a.request = .error e) :
    a.perform w fuel = some (.failure w.tree [] e) := by
  simp only [Arguments.perform, Arguments.prepare, run_bind, h]
  rfl

theorem perform_of_request {r : Request} (h : a.request = .ok r) :
    a.perform w fuel = match (r.prepare (FileTree.system w.faults) w.tag).run w.tree with
      | (.error e, tree) => some (.failure tree [] e)
      | (.ok job, tree) => job.perform tree w.stdin fuel := by
  simp only [Arguments.perform, Arguments.prepare, run_bind, h]
  rfl

theorem perform_of_report (hrequest : a.request = .ok (.report source a.policy a.style))
    (htokens : Switch.tokens ∈ a.switches) : a.perform w fuel = some (a.treat w source) := by
  simp only [perform_of_request hrequest, Request.prepare, run_bind, FileTree.run_readSource,
    Arguments.treat, if_pos htokens]
  cases w.tree.readSource source <;> rfl

theorem perform_of_list (hrequest : a.request = .ok (.list source a.options))
    (htokens : Switch.tokens ∉ a.switches) (houtput : a.output? = none) :
    a.perform w fuel = some (a.treat w source) := by
  simp only [perform_of_request hrequest, Request.prepare, run_bind, FileTree.run_compileSource,
    Arguments.treat, if_neg htokens, houtput]
  cases w.tree.readSource source with
  | error e => rfl
  | ok text =>
      dsimp only
      cases Program.compile a.options text <;> rfl

theorem perform_of_compile
    (hrequest : a.request = .ok (.compile source output a.options (a.has .bytecode)))
    (htokens : Switch.tokens ∉ a.switches) (houtput : a.output? = some output) :
    a.perform w fuel = some (a.treat w source) := by
  have hfile : ((FileTree.system w.faults).compileFile w.tag a.options source output).run w.tree
      = w.tree.compileFile w.faults w.tag a.options source output := rfl
  simp only [perform_of_request hrequest, Request.prepare, run_bind, hfile,
    FileTree.compileFile_eq, Arguments.treat, if_neg htokens, houtput]
  cases w.tree.readSource source with
  | error e => rfl
  | ok text =>
      dsimp only
      cases Program.compile a.options text with
      | error e => rfl
      | ok p =>
          dsimp only
          rcases w.tree.writeArtifact w.faults w.tag p output with ⟨e | _, tree⟩ <;> rfl

theorem perform_of_asksNothing (h : a.AsksNothing) :
    ∃ text, a.perform w fuel = some (.failure w.tree [] (.arguments text)) := by
  obtain ⟨hrun, htask⟩ := h
  have hrequest : ∃ text, a.request = .error (.arguments text) := by
    simp only [Arguments.request, hrun]
    cases hfiles : a.files with
    | nil => exact ⟨_, rfl⟩
    | cons source more =>
        simp only [Arguments.input?, Arguments.output?, hfiles, ← Arguments.has_iff,
          Bool.not_eq_true] at htask
        rcases htask with hnone | ⟨htokens, houtput, hbytecode⟩
        · cases hnone
        · cases more with
          | nil =>
              simp only [htokens, hbytecode]
              exact ⟨_, rfl⟩
          | cons output more => cases houtput
  obtain ⟨text, hrequest⟩ := hrequest
  exact ⟨text, perform_of_request_error hrequest⟩

theorem perform_of_asksFor (h : a.AsksFor source) :
    a.perform w fuel = some (a.treat w source) := by
  obtain ⟨hrun, hinput, htask⟩ := h
  cases hfiles : a.files with
  | nil =>
      rw [Arguments.input?, hfiles] at hinput
      cases hinput
  | cons source' more =>
      rw [Arguments.input?, hfiles] at hinput
      obtain rfl : source' = source := Option.some.inj hinput
      by_cases htokens : Switch.tokens ∈ a.switches
      · have hrequest : a.request = .ok (.report source' a.policy a.style) := by
          simp only [Arguments.request, hrun, hfiles, Arguments.has_iff.2 htokens, if_true]
        exact perform_of_report hrequest htokens
      · have hhas := Arguments.has_eq_false_iff.2 htokens
        cases more with
        | cons output more =>
            have hrequest : a.request
                = .ok (.compile source' output a.options (a.has .bytecode)) := by
              simp only [Arguments.request, hrun, hfiles, hhas, Bool.false_eq_true, if_false]
            exact perform_of_compile hrequest htokens (by rw [Arguments.output?, hfiles]; rfl)
        | nil =>
            have houtput : a.output? = none := by rw [Arguments.output?, hfiles]; rfl
            have hbytecode : Switch.bytecode ∈ a.switches := by
              simpa [htokens, houtput] using htask
            have hrequest : a.request = .ok (.list source' a.options) := by
              simp only [Arguments.request, hrun, hfiles, hhas, Bool.false_eq_true, if_false,
                Arguments.has_iff.2 hbytecode, if_true]
            exact perform_of_list hrequest htokens houtput

/-! ## Failures -/

namespace Surroundings

/-- The program can be stored under this name. -/
def CanStore (w : Surroundings) (p : Program) (output : String) : Prop :=
  ∃ tree, w.tree.writeArtifact w.faults w.tag p output = (.ok (), tree)

/-- The result of running a program on the standard input, if it ends within `fuel` steps. -/
def resultOf (w : Surroundings) (fuel : Nat) (p : Program) : Option RunResult :=
  p.run none fuel .empty { input := w.stdin }

/-- No file stands in the way of preparing the output. -/
def Unobstructed (w : Surroundings) (a : Arguments) : Prop :=
  ∀ output, a.output? = some output → w.tree.TagUnused w.tag output

/-- No file stands in the way of an output whose hidden name is free. -/
theorem unobstructed_of_vacant {name : String} (houtput : a.output? = some output)
    (hname : Path.fileName? output = some name)
    (h : w.tree.Vacant (FileSystem.hiddenPath output name w.tag)) : w.Unobstructed a := by
  intro output' houtput'
  cases houtput.symm.trans houtput'
  exact FileTree.tagUnused_of_vacant hname h

end Surroundings

/-- The ways to fail, and their codes. -/
inductive Fails (w : Surroundings) (fuel : Nat) (a : Arguments) : UInt8 → Prop
  /-- There is nothing to do. -/
  | arguments (h : a.AsksNothing) : Fails w fuel a 1
  /-- The source cannot be read as a text. -/
  | source {source : String} (h : a.AsksFor source)
      (hsource : ∀ text, ¬ w.tree.HoldsText source text) : Fails w fuel a 2
  /-- The source is to be compiled, and its brackets do not match. -/
  | compile {source text : String} (h : a.AsksFor source)
      (hsource : w.tree.HoldsText source text) (htokens : Switch.tokens ∉ a.switches)
      (hbrackets : ¬ BracketsMatch text) : Fails w fuel a 3
  /-- The artifact cannot be read or decoded. -/
  | load {artifact : String} (h : a.run = some artifact)
      (hartifact : ∀ p, ¬ w.tree.HoldsProgram artifact p) : Fails w fuel a 4
  /-- The source is to be compiled to a file, its brackets match, and the file cannot be written. -/
  | store {source text output : String} (h : a.AsksFor source)
      (hsource : w.tree.HoldsText source text) (htokens : Switch.tokens ∉ a.switches)
      (hbrackets : BracketsMatch text) (houtput : a.output? = some output)
      (hstore : ∀ options p, a.Gives options → Program.compile options text = .ok p →
        ¬ w.CanStore p output) :
      Fails w fuel a 4
  /-- The run of the artifact fails. -/
  | run {artifact : String} {p : Program} {r : RunResult} {e : RunError}
      (h : a.run = some artifact) (hartifact : w.tree.HoldsProgram artifact p)
      (hends : w.resultOf fuel p = some r) (hfails : r.outcome = .error e) : Fails w fuel a 5

theorem Fails.ne_zero {k : UInt8} (h : Fails w fuel a k) : k ≠ 0 := by
  cases h <;> decide

/-- What is to be compiled to a file does not fail if it is a program that can be stored. -/
theorem not_fails_of_canStore {p : Program} (h : a.AsksFor source)
    (hsource : w.tree.HoldsText source text) (hbrackets : BracketsMatch text)
    (houtput : a.output? = some output) (hcompile : Program.compile a.options text = .ok p)
    (hstore : w.CanStore p output) (k : UInt8) : ¬ Fails w fuel a k := by
  have hfile : ∀ source' text', a.AsksFor source' → w.tree.HoldsText source' text' →
      text' = text := by
    intro source' text' h' hsource'
    cases h.2.1.symm.trans h'.2.1
    exact hsource'.unique hsource
  intro hfails
  cases hfails with
  | arguments hnothing =>
      rcases hnothing.2 with hnone | ⟨-, hnone, -⟩
      · rw [h.2.1] at hnone
        cases hnone
      · rw [houtput] at hnone
        cases hnone
  | source h' hnone =>
      cases h.2.1.symm.trans h'.2.1
      exact hnone text hsource
  | compile h' hsource' _ hnot =>
      cases hfile _ _ h' hsource'
      exact hnot hbrackets
  | store h' hsource' _ _ houtput' hnot =>
      cases hfile _ _ h' hsource'
      cases houtput.symm.trans houtput'
      exact hnot a.options p a.gives_options hcompile hstore
  | load hrun =>
      rw [h.1] at hrun
      cases hrun
  | run hrun =>
      rw [h.1] at hrun
      cases hrun

/-! ## A source, step by step -/

section

variable {p : Program} {tree : FileTree}

theorem treat_of_unreadable (h : ∀ text, ¬ w.tree.HoldsText source text) :
    ∃ cause, a.treat w source = .failure w.tree [] (.source source cause) := by
  cases hread : w.tree.readSource source with
  | ok text => exact absurd (FileTree.readSource_eq_ok_iff.1 hread) (h text)
  | error e =>
      obtain ⟨cause, rfl⟩ := FileTree.exists_cause_of_readSource hread
      exact ⟨cause, by simp only [Arguments.treat, hread]⟩

variable (hsource : w.tree.HoldsText source text)
include hsource

theorem treat_of_tokens (htokens : Switch.tokens ∈ a.switches) :
    a.treat w source
      = .success w.tree (reportText a.policy a.style text).toUTF8.toList := by
  have hread := FileTree.readSource_eq_ok_iff.2 hsource
  simp only [Arguments.treat, hread, if_pos htokens]

variable (htokens : Switch.tokens ∉ a.switches)
include htokens

theorem treat_of_no_program (h : ¬ ∃ p, Program.compile a.options text = .ok p) :
    ∃ cause, a.treat w source = .failure w.tree [] (.compile cause) := by
  have hread := FileTree.readSource_eq_ok_iff.2 hsource
  cases hcompile : Program.compile a.options text with
  | ok p => exact absurd ⟨p, hcompile⟩ h
  | error cause =>
      exact ⟨cause, by
        simp only [Arguments.treat, hread, if_neg htokens, hcompile]⟩

variable (hcompile : Program.compile a.options text = .ok p)
include hcompile

theorem treat_of_no_output (houtput : a.output? = none) :
    a.treat w source = .success w.tree p.listing.toUTF8.toList := by
  have hread := FileTree.readSource_eq_ok_iff.2 hsource
  simp only [Arguments.treat, hread, if_neg htokens, hcompile, houtput]

variable (houtput : a.output? = some output)
include houtput

theorem treat_of_stored
    (hwrite : w.tree.writeArtifact w.faults w.tag p output = (.ok (), tree)) :
    a.treat w source
      = .success tree (if a.has .bytecode then p.listing else "").toUTF8.toList := by
  have hread := FileTree.readSource_eq_ok_iff.2 hsource
  simp only [Arguments.treat, hread, if_neg htokens, hcompile, houtput,
    hwrite]

theorem treat_of_not_stored {cause : ArtifactError}
    (hwrite : w.tree.writeArtifact w.faults w.tag p output = (.error cause, tree)) :
    a.treat w source = .failure tree [] (.artifact cause) := by
  have hread := FileTree.readSource_eq_ok_iff.2 hsource
  simp only [Arguments.treat, hread, if_neg htokens, hcompile, houtput,
    hwrite]

end

theorem exists_error_of_not_canStore {p : Program} (h : ¬ w.CanStore p output) :
    ∃ cause tree, w.tree.writeArtifact w.faults w.tag p output = (.error cause, tree) := by
  rcases hwrite : w.tree.writeArtifact w.faults w.tag p output with ⟨cause | _, tree⟩
  · exact ⟨cause, tree, rfl⟩
  · exact absurd ⟨tree, hwrite⟩ h

/-! ## An artifact -/

theorem perform_of_unreadable (h : a.run = some artifact)
    (hartifact : ∀ p, ¬ w.tree.HoldsProgram artifact p) :
    ∃ cause, a.perform w fuel = some (.failure w.tree [] (.artifact cause)) := by
  have hrequest : a.request = .ok (.run artifact) := by simp only [Arguments.request, h]
  cases hread : w.tree.readArtifact artifact with
  | ok p => exact absurd (FileTree.readArtifact_eq_ok_iff.1 hread) (hartifact p)
  | error cause =>
      refine ⟨cause, ?_⟩
      simp only [perform_of_request hrequest, Request.prepare, run_bind, run_adapt,
        FileTree.run_readArtifact, hread]

theorem perform_of_program {p : Program} (h : a.run = some artifact)
    (hartifact : w.tree.HoldsProgram artifact p) :
    a.perform w fuel = (w.resultOf fuel p).map fun r =>
      .ofOutcome w.tree r.streams.output (r.outcome.mapError .run) := by
  have hrequest : a.request = .ok (.run artifact) := by simp only [Arguments.request, h]
  have hread := FileTree.readArtifact_eq_ok_iff.2 hartifact
  simp only [perform_of_request hrequest, Request.prepare, run_bind, run_adapt,
    FileTree.run_readArtifact, hread]
  rfl

/-! ## The exit code -/

section

-- Under this assumption, which holds if there is some memory and sources are not too long, brackets
-- alone decide what can be compiled.
variable (hcompiles : ∀ source text, a.AsksFor source → w.tree.HoldsText source text →
    ((∃ p, Program.compile a.options text = .ok p) ↔ BracketsMatch text))
include hcompiles

/-- A way to fail determines the exit code. -/
theorem Fails.code_eq {k : UInt8} {exit : Exit} (h : Fails w fuel a k)
    (hperform : a.perform w fuel = some exit) : exit.code = k := by
  -- each failure is followed to its exit, so that no two of them need to be told apart
  cases h with
  | arguments h =>
      obtain ⟨text, hends⟩ := perform_of_asksNothing h
      rw [hends] at hperform
      cases hperform
      rfl
  | @source source h hsource =>
      obtain ⟨cause, htreat⟩ := treat_of_unreadable hsource
      rw [perform_of_asksFor h, htreat] at hperform
      cases hperform
      rfl
  | @compile source text h hsource htokens hbrackets =>
      have hnone := mt (hcompiles source text h hsource).1 hbrackets
      obtain ⟨cause, htreat⟩ := treat_of_no_program hsource htokens hnone
      rw [perform_of_asksFor h, htreat] at hperform
      cases hperform
      rfl
  | load h hartifact =>
      obtain ⟨cause, hrun⟩ := perform_of_unreadable h hartifact
      rw [hrun] at hperform
      cases hperform
      rfl
  | @store source text output h hsource htokens hbrackets houtput hstore =>
      obtain ⟨p, hcompile⟩ := (hcompiles source text h hsource).2 hbrackets
      obtain ⟨cause, tree, hwrite⟩ :=
        exists_error_of_not_canStore (hstore a.options p a.gives_options hcompile)
      rw [perform_of_asksFor h,
        treat_of_not_stored hsource htokens hcompile houtput hwrite] at hperform
      cases hperform
      rfl
  | run h hartifact hends hfails =>
      rw [perform_of_program h hartifact, hends, Option.map_some, hfails] at hperform
      cases hperform
      rfl

/-- How a process ends: by failing, or by showing something or storing a program. -/
inductive Ends (w : Surroundings) (fuel : Nat) (a : Arguments) : Exit → Prop
  | failed {e : Error} {tree : FileTree} (hfails : Fails w fuel a e.exitCode)
      (hkept : w.Unobstructed a → tree = w.tree) : Ends w fuel a (.failure tree [] e)
  | runFailed {e : RunError} {stdout : List UInt8} (hfails : Fails w fuel a 5) :
      Ends w fuel a (.failure w.tree stdout (.run e))
  | shown {stdout : List UInt8}
      (h : a.run ≠ none ∨ Switch.tokens ∈ a.switches ∨ a.output? = none) :
      Ends w fuel a (.success w.tree stdout)
  | stored {source text output : String} {p : Program} {tree : FileTree} {stdout : List UInt8}
      (h : a.AsksFor source) (hsource : w.tree.HoldsText source text)
      (htokens : Switch.tokens ∉ a.switches) (hcompile : Program.compile a.options text = .ok p)
      (houtput : a.output? = some output)
      (hwrite : w.tree.writeArtifact w.faults w.tag p output = (.ok (), tree)) :
      Ends w fuel a (.success tree stdout)

omit hcompiles in
/-- A program is listed, or it is stored, or it cannot be stored. -/
theorem ends_treat_of_program {p : Program} (h : a.AsksFor source)
    (hsource : w.tree.HoldsText source text) (htokens : Switch.tokens ∉ a.switches)
    (hcompile : Program.compile a.options text = .ok p) (hmatch : BracketsMatch text) :
    Ends w fuel a (a.treat w source) := by
  cases houtput : a.output? with
  | none =>
      rw [treat_of_no_output hsource htokens hcompile houtput]
      exact .shown (.inr (.inr houtput))
  | some output =>
      rcases hwrite : w.tree.writeArtifact w.faults w.tag p output with ⟨cause | _, tree⟩
      · rw [treat_of_not_stored hsource htokens hcompile houtput hwrite]
        refine .failed (.store h hsource htokens hmatch houtput ?_) ?_
        · rintro options p' hgives hcompile' ⟨tree', hwrite'⟩
          rw [hgives.eq_options] at hcompile'
          cases hcompile.symm.trans hcompile'
          rw [hwrite] at hwrite'
          cases hwrite'
        · intro hunobstructed
          exact (hunobstructed output houtput).eq_of_writeArtifact hwrite
      · rw [treat_of_stored hsource htokens hcompile houtput hwrite]
        exact .stored h hsource htokens hcompile houtput hwrite

theorem ends_treat (h : a.AsksFor source) : Ends w fuel a (a.treat w source) := by
  cases hread : w.tree.readSource source with
  | error e =>
      have hsource : ∀ text, ¬ w.tree.HoldsText source text := by
        intro text htext
        rw [FileTree.readSource_eq_ok_iff.2 htext] at hread
        cases hread
      obtain ⟨cause, htreat⟩ := treat_of_unreadable hsource
      rw [htreat]
      exact .failed (.source h hsource) fun _ => rfl
  | ok text =>
      have hsource := FileTree.readSource_eq_ok_iff.1 hread
      have hbrackets := hcompiles source text h hsource
      by_cases htokens : Switch.tokens ∈ a.switches
      · rw [treat_of_tokens hsource htokens]
        exact .shown (.inr (.inl htokens))
      · by_cases hprogram : ∃ p, Program.compile a.options text = .ok p
        · obtain ⟨p, hcompile⟩ := hprogram
          exact ends_treat_of_program h hsource htokens hcompile (hbrackets.1 ⟨p, hcompile⟩)
        · obtain ⟨cause, htreat⟩ := treat_of_no_program hsource htokens hprogram
          rw [htreat]
          exact .failed (.compile h hsource htokens (mt hbrackets.2 hprogram)) fun _ => rfl

omit hcompiles in
theorem ends_of_run {exit : Exit} (h : a.run = some artifact)
    (hperform : a.perform w fuel = some exit) : Ends w fuel a exit := by
  by_cases hprogram : ∃ p, w.tree.HoldsProgram artifact p
  · obtain ⟨p, hartifact⟩ := hprogram
    rw [perform_of_program h hartifact] at hperform
    obtain ⟨r, hr, rfl⟩ := Option.map_eq_some_iff.1 hperform
    cases houtcome : r.outcome with
    | error e => exact .runFailed (.run h hartifact hr houtcome)
    | ok _ => exact .shown (.inl (by rw [h]; exact Option.some_ne_none artifact))
  · have hnone : ∀ p, ¬ w.tree.HoldsProgram artifact p := fun p hp => hprogram ⟨p, hp⟩
    obtain ⟨cause, hrun⟩ := perform_of_unreadable h hnone
    rw [hrun] at hperform
    cases hperform
    exact .failed (.load h hnone) fun _ => rfl

theorem ends_of_perform {exit : Exit} (hperform : a.perform w fuel = some exit) :
    Ends w fuel a exit := by
  rcases a.asks_cases with h | ⟨artifact, h⟩ | ⟨source, h⟩
  · obtain ⟨text, hends⟩ := perform_of_asksNothing h
    rw [hends] at hperform
    cases hperform
    exact .failed (.arguments h) fun _ => rfl
  · exact ends_of_run h hperform
  · rw [perform_of_asksFor h] at hperform
    cases hperform
    exact ends_treat hcompiles h

end

/-- What the exit of a process tells. -/
structure Contract (w : Surroundings) (fuel : Nat) (a : Arguments) (exit : Exit) : Prop where
  code_iff : ∀ k, k ≠ 0 → (exit.code = k ↔ Fails w fuel a k)
  zero_iff : exit.code = 0 ↔ ∀ k, ¬ Fails w fuel a k
  /-- Nothing is shown if the process fails before it runs a program. -/
  stdout : exit.code ≠ 0 → exit.code ≠ 5 → exit.stdout = []
  stderr : exit.code = 0 ∧ exit.stderr = "" ∨
    ∃ e : Error, exit.code = e.exitCode ∧ exit.stderr = errorText e
  /-- The files stay what they are unless a program is stored. -/
  kept : w.Unobstructed a →
    ¬ (exit.code = 0 ∧ a.run = none ∧ Switch.tokens ∉ a.switches ∧ a.output? ≠ none) →
    exit.tree = w.tree
  /-- What is stored is the program of the source under the options that are given. -/
  stored : w.Unobstructed a → ∀ output, exit.code = 0 → a.run = none →
    Switch.tokens ∉ a.switches → a.output? = some output →
    ∃ source text options p, a.input? = some source ∧ w.tree.HoldsText source text ∧
      a.Gives options ∧ Program.compile options text = .ok p ∧ w.tree.Stored output p exit.tree

theorem Ends.fails_of_ne_zero {exit : Exit} (h : Ends w fuel a exit) (hcode : exit.code ≠ 0) :
    Fails w fuel a exit.code := by
  cases h with
  | failed hfails hkept => exact hfails
  | runFailed hfails => exact hfails
  | shown h => exact absurd rfl hcode
  | stored h hsource htokens hcompile houtput hwrite => exact absurd rfl hcode

theorem Ends.contract {exit : Exit} (h : Ends w fuel a exit)
    (hcode : ∀ k, Fails w fuel a k → exit.code = k) : Contract w fuel a exit where
  code_iff := by
    intro k hk
    refine ⟨?_, hcode k⟩
    rintro rfl
    exact h.fails_of_ne_zero hk
  zero_iff := by
    constructor
    · intro hzero k hfails
      exact hfails.ne_zero ((hcode k hfails).symm.trans hzero)
    · intro hnone
      by_contra hne
      exact hnone _ (h.fails_of_ne_zero hne)
  stdout := by
    intro hne hrun
    cases h with
    | failed hfails hkept => rfl
    | runFailed hfails => exact absurd rfl hrun
    | shown h => exact absurd rfl hne
    | stored h hsource htokens hcompile houtput hwrite => exact absurd rfl hne
  stderr := by
    cases h with
    | @failed e tree hfails hkept => exact .inr ⟨e, rfl, rfl⟩
    | @runFailed e stdout hfails => exact .inr ⟨.run e, rfl, rfl⟩
    | shown h => exact .inl ⟨rfl, rfl⟩
    | stored h hsource htokens hcompile houtput hwrite => exact .inl ⟨rfl, rfl⟩
  kept := by
    intro hunobstructed hnot
    cases h with
    | failed hfails hkept => exact hkept hunobstructed
    | runFailed hfails => rfl
    | shown h => rfl
    | stored h hsource htokens hcompile houtput hwrite =>
        refine absurd ⟨rfl, h.1, htokens, ?_⟩ hnot
        rw [houtput]
        exact Option.some_ne_none _
  stored := by
    intro hunobstructed output hzero hrun htokens houtput
    cases h with
    | failed hfails hkept => exact absurd hzero hfails.ne_zero
    | runFailed hfails => exact absurd hzero hfails.ne_zero
    | shown h =>
        rcases h with hrun' | htokens' | houtput'
        · exact absurd hrun hrun'
        · exact absurd htokens' htokens
        · rw [houtput] at houtput'
          cases houtput'
    | @stored source text output' p tree stdout h hsource htokens' hcompile houtput' hwrite =>
        cases houtput.symm.trans houtput'
        have hunused := hunobstructed output houtput
        exact ⟨source, text, a.options, p, h.2.1, hsource, a.gives_options, hcompile,
          (hunused.writeArtifact_eq_ok_iff.1 hwrite).2.2.stored⟩

/-! ## Results -/

theorem perform_eq_none_iff :
    a.perform w fuel = none ↔ ∃ artifact p, a.run = some artifact ∧
      w.tree.HoldsProgram artifact p ∧ w.resultOf fuel p = none := by
  constructor
  · intro hnone
    rcases a.asks_cases with h | ⟨artifact, h⟩ | ⟨source, h⟩
    · obtain ⟨text, hends⟩ := perform_of_asksNothing h
      rw [hends] at hnone
      cases hnone
    · by_cases hprogram : ∃ p, w.tree.HoldsProgram artifact p
      · obtain ⟨p, hartifact⟩ := hprogram
        rw [perform_of_program h hartifact, Option.map_eq_none_iff] at hnone
        exact ⟨artifact, p, h, hartifact, hnone⟩
      · obtain ⟨cause, hrun⟩ :=
          perform_of_unreadable h fun p hartifact => hprogram ⟨p, hartifact⟩
        rw [hrun] at hnone
        cases hnone
    · rw [perform_of_asksFor h] at hnone
      cases hnone
  · rintro ⟨artifact, p, h, hartifact, hnone⟩
    rw [perform_of_program h hartifact, hnone]
    rfl

theorem reply_of_parse {arguments : List String} (h : Arguments.parse arguments = .accepted a) :
    reply w fuel arguments = (a.perform w fuel).map .ended := by
  simp only [reply, h]

/-- How a process ends. Whatever the arguments are, as long as they do not ask for a memory without
    cells, it ends unless a program runs on, and then it keeps the contract. All arguments that are
    accepted are such, and they are what a command line is answered by. -/
theorem exit_contract (w : Surroundings) (fuel : Nat) (a : Arguments)
    (hlength : ∀ source text, a.input? = some source → w.tree.HoldsText source text →
      (Command.ofSource text).length < 2147483648) :
    (∀ arguments, Arguments.parse arguments = .accepted a →
      a.Acceptable ∧ reply w fuel arguments = (a.perform w fuel).map .ended) ∧
    (a.memorySize ≠ some 0 → ∀ exit, a.perform w fuel = some exit → Contract w fuel a exit) ∧
    (a.perform w fuel = none ↔ ∃ artifact p, a.run = some artifact ∧
      w.tree.HoldsProgram artifact p ∧ w.resultOf fuel p = none) ∧
    (w.Unobstructed a → ∀ p output, a.output? = some output →
      (w.CanStore p output ↔ w.faults = {} ∧ w.tree.Storable w.tag output)) := by
  refine ⟨?_, ?_, perform_eq_none_iff, ?_⟩
  · intro arguments hparse
    exact ⟨Arguments.acceptable_of_parse hparse, reply_of_parse hparse⟩
  · intro hmemory exit hperform
    have hcompiles : ∀ source text, a.AsksFor source → w.tree.HoldsText source text →
        ((∃ p, Program.compile a.options text = .ok p) ↔ BracketsMatch text) := by
      intro source text h hsource
      exact Program.exists_compile_iff (Arguments.memorySize_options_ne_zero hmemory)
        (hlength source text h.2.1 hsource)
    exact (ends_of_perform hcompiles hperform).contract fun k hfails =>
      hfails.code_eq hcompiles hperform
  · intro hunobstructed p output houtput
    exact (hunobstructed output houtput).exists_writeArtifact_iff p

/-- A source that is to be listed and compiled under options of all kinds. Compiled to a name that
    is a directory, it is not listed either; compiled to a new name, it is stored as these options
    want it. -/
theorem exit_contract_outputs :
    let w : Surroundings :=
      { tree := ⟨[(.relative 0 ["a.bf"], .file [0x2b, 0x78, 0x2b] false),
          (.relative 0 ["b"], .directory)]⟩
        stdin := [], tag := "7.0" }
    let line (output : String) : List String :=
      ["--memory-size=5", "--filtered-runs", "--bounds-check", "--bc", "a.bf", output]
    (∃ exit, reply w 0 (line "b") = some (.ended exit) ∧ exit.code = 4 ∧ exit.stdout = [] ∧
      exit.tree = w.tree) ∧
    ∃ exit, reply w 0 (line "c") = some (.ended exit) ∧ exit.code = 0 ∧
      w.tree.Stored "c" ⟨5, 0, true, #[.addCell 2, .halt]⟩ exit.tree := by
  intro w line
  let a (output : String) : Arguments :=
    { switches := [.filteredRuns, .boundsCheck, .bytecode], memorySize := some 5,
      files := ["a.bf", output] }
  have hparse : Arguments.parse (line "b") = .accepted (a "b") ∧
      Arguments.parse (line "c") = .accepted (a "c") := by decide +kernel
  have hsource : w.tree.HoldsText "a.bf" "+x+" := rfl
  have htext : ∀ text, w.tree.HoldsText "a.bf" text → text = "+x+" :=
    fun text hholds => hholds.unique hsource
  have hbrackets : BracketsMatch "+x+" := by
    have hempty : (Command.ofSource "+x+").filterMap Command.bracket? = [] := by decide +kernel
    rw [BracketsMatch, hempty]
    exact Bracket.balanced_nil
  have hlength : ∀ output source text, (a output).input? = some source →
      w.tree.HoldsText source text → (Command.ofSource text).length < 2147483648 := by
    intro output source text hinput hholds
    cases hinput
    rw [htext text hholds]
    decide +kernel
  have hends : ∀ output, ∃ exit, (a output).perform w 0 = some exit ∧
      Contract w 0 (a output) exit := by
    intro output
    obtain ⟨-, hcontract, hnone, -⟩ := exit_contract w 0 (a output) (hlength output)
    cases hperform : (a output).perform w 0 with
    | none =>
        obtain ⟨artifact, p, hrun, -⟩ := hnone.1 hperform
        cases hrun
    | some exit => exact ⟨exit, rfl, hcontract (by simp [a]) exit hperform⟩
  refine ⟨?_, ?_⟩
  · obtain ⟨hreply, -, -, hstorable⟩ := exit_contract w 0 (a "b") (hlength "b")
    obtain ⟨exit, hperform, hcontract⟩ := hends "b"
    have hname : Path.fileName? "b" = some "b" := by decide +kernel
    have hunobstructed : w.Unobstructed (a "b") :=
      Surroundings.unobstructed_of_vacant rfl hname ⟨.notFound, by decide +kernel⟩
    have hdirectory : ¬ w.tree.Storable "7.0" "b" := by
      rintro ⟨name, -, -, s, hslot, -, hget⟩
      have hslot' : w.tree.slot "b" = .ok ⟨.relative 0 [], "b", false⟩ :=
        FileTree.slot_eq_ok_iff.2 (by decide +kernel)
      cases hslot'.symm.trans hslot
      exact hget (by decide +kernel)
    have hcode : exit.code = 4 := by
      refine (hcontract.code_iff 4 (by decide)).2 (.store ⟨rfl, rfl, .inr (.inr (by decide))⟩
        hsource (by decide) hbrackets rfl ?_)
      intro options p _ _ hstore
      exact hdirectory ((hstorable hunobstructed p "b" rfl).1 hstore).2
    refine ⟨exit, ?_, hcode, hcontract.stdout ?_ ?_, hcontract.kept hunobstructed ?_⟩
    · rw [(hreply _ hparse.1).2, hperform]
      rfl
    · rw [hcode]
      decide
    · rw [hcode]
      decide
    · rintro ⟨hzero, -⟩
      rw [hcode] at hzero
      exact absurd hzero (by decide)
  · obtain ⟨hreply, -, -, hstorable⟩ := exit_contract w 0 (a "c") (hlength "c")
    obtain ⟨exit, hperform, hcontract⟩ := hends "c"
    have hname : Path.fileName? "c" = some "c" := by decide +kernel
    have hunobstructed : w.Unobstructed (a "c") :=
      Surroundings.unobstructed_of_vacant rfl hname ⟨.notFound, by decide +kernel⟩
    have hcompile : Program.compile (a "c").options "+x+"
        = .ok ⟨5, 0, true, #[.addCell 2, .halt]⟩ := rfl
    have hstore : ∀ p, w.CanStore p "c" := by
      intro p
      have hhidden : w.tree.slot (FileSystem.hiddenPath "c" "c" "7.0")
          = .ok ⟨.relative 0 [], ".c.7.0.tmp", false⟩ :=
        FileTree.slot_eq_ok_iff.2 (by decide +kernel)
      have houtput : w.tree.slot "c" = .ok ⟨.relative 0 [], "c", false⟩ :=
        FileTree.slot_eq_ok_iff.2 (by decide +kernel)
      exact (hstorable hunobstructed p "c" rfl).2 ⟨rfl, "c", hname,
        ⟨_, hhidden, ⟨rfl, by decide, by decide, by decide +kernel⟩, by decide +kernel⟩,
        ⟨_, houtput, ⟨rfl, by decide, by decide, by decide +kernel⟩, by decide +kernel⟩⟩
    have hcode : exit.code = 0 :=
      hcontract.zero_iff.2 (not_fails_of_canStore ⟨rfl, rfl, .inr (.inr (by decide))⟩ hsource
        hbrackets rfl hcompile (hstore _))
    refine ⟨exit, ?_, hcode, ?_⟩
    · rw [(hreply _ hparse.2).2, hperform]
      rfl
    · obtain ⟨source, text, options, p, hinput, hholds, hgives, hcompile', hstored⟩ :=
        hcontract.stored hunobstructed "c" hcode rfl (by decide) rfl
      cases hinput
      rw [htext _ hholds, hgives.eq_options] at hcompile'
      cases hcompile.symm.trans hcompile'
      exact hstored

end CommandLine

end Brainfuck
