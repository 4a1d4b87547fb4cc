import Brainfuck.Proofs.Compilation.Correctness

set_option autoImplicit false

/-! # Comments and the run policy do not matter

Two sources with the same commands are grouped into runs in different ways, by their comments and by
the policy, and so compile to different programs. But both programs implement the same tree of
commands, and whatever they do, they do alike: they fail to compile for the same reason, or both run
forever, or both end with the same error, the same calls of the streams and the same memory.

Only a checked move can tell the two apart. A run of moves that leaves the memory traps behind its
last move, and how far that is depends on how the moves are grouped. -/

namespace Brainfuck

/-! ## What has to agree -/

/-- Two errors for the same reason, whatever place they point to. -/
def CompileError.SameReason : CompileError → CompileError → Prop
  | .zeroMemory, .zeroMemory => True
  | .unmatchedOpen _, .unmatchedOpen _ => True
  | .unmatchedClose _, .unmatchedClose _ => True
  | .assembly cause, .assembly cause' => cause = cause'
  | _, _ => False

namespace RunError

/-- An error without the place of the instruction that trapped. -/
def unplaced : RunError → RunError
  | pointerOutOfBounds pointer cells _ => .pointerOutOfBounds pointer cells 0
  | e => e

/-- An error without the place of the instruction that trapped and without the pointer. -/
def kind : RunError → RunError
  | pointerOutOfBounds _ cells _ => .pointerOutOfBounds 0 cells 0
  | e => e

end RunError

/-- Two results that agree in all but the place of an error. If `overshot` holds, the pointers may
    differ. -/
structure RunResult.Alike (overshot : Prop) (r r' : RunResult) : Prop where
  kind : r.outcome.mapError RunError.kind = r'.outcome.mapError RunError.kind
  streams : r.streams = r'.streams
  cells : r.tape.cells = r'.tape.cells
  pointer : overshot ∨ (r.tape.pointer = r'.tape.pointer ∧
    r.outcome.mapError RunError.unplaced = r'.outcome.mapError RunError.unplaced)

namespace Program

/-- The last instruction was a move, and it left the memory. -/
def StopsOnMove (p : Program) (r : Except RunError Unit × Machine) : Prop :=
  ∃ pointer cells ip, r.1 = .error (.pointerOutOfBounds pointer cells ip) ∧ p.MovesAt ip

/-- The program, run on these streams, traps because a move leaves the memory. (The result of the
    run need not show it, since the last flush may fail as well.) -/
def TrapsOnMove (p : Program) (streams : Streams) : Prop :=
  ∃ tape fuel r, p.load = .ok tape ∧ Machine.runFor p none fuel { tape, streams } = some r ∧
    p.StopsOnMove r

end Program

/-! ## The same reason to fail -/

section Verdicts

variable {memorySize : UInt64} {bs bs' : List (Bracket × Position)}
  {result result' : Except CompileError Program}

/-- The verdict on brackets depends on their places only in the places it names. -/
theorem Verdict.sameReason (h : Verdict memorySize bs result) (h' : Verdict memorySize bs' result')
    (hbs : bs.map Prod.fst = bs'.map Prod.fst) {e : CompileError} (he : result = .error e) :
    ∃ e', result' = .error e' ∧ e.SameReason e' := by
  cases e with
  | zeroMemory => exact ⟨.zeroMemory, h'.zeroMemory_iff.2 (h.zeroMemory_iff.1 he), trivial⟩
  | unmatchedOpen p =>
      have hopen := h.unmatchedOpen_iff.1 ⟨p, he⟩
      rw [hbs] at hopen
      obtain ⟨p', he'⟩ := h'.unmatchedOpen_iff.2 hopen
      exact ⟨.unmatchedOpen p', he', trivial⟩
  | unmatchedClose p =>
      have hclose := h.unmatchedClose_iff.1 ⟨p, he⟩
      rw [hbs] at hclose
      obtain ⟨p', he'⟩ := h'.unmatchedClose_iff.2 hclose
      exact ⟨.unmatchedClose p', he', trivial⟩
  | assembly cause => exact absurd he (h.not_assembly cause)

end Verdicts

/-- The brackets of a source's runs, without their places, are those among its commands. -/
theorem Run.map_fst_brackets_ofSource (policy : RunPolicy) (source : String) :
    ((Run.ofSource policy source).flatMap Run.brackets).map Prod.fst
      = (Command.ofSource source).filterMap Command.bracket? := by
  rw [Run.map_fst_brackets, Run.flatMap_commands_ofSource]

/-! ## The same runs -/

theorem RunResult.Alike.imp {overshot overshot' : Prop} {r r' : RunResult}
    (h : Alike overshot r r') (himp : overshot → overshot') : Alike overshot' r r' :=
  ⟨h.kind, h.streams, h.cells, h.pointer.imp himp id⟩

/-- The last flush is the same for both. -/
theorem RunResult.Alike.conclude {overshot : Prop} {outcome outcome' : Except RunError Unit}
    {m m' : Machine}
    (h : Alike overshot { outcome, tape := m.tape, streams := m.streams }
      { outcome := outcome', tape := m'.tape, streams := m'.streams }) :
    Alike overshot (Program.conclude outcome m) (Program.conclude outcome' m') := by
  obtain ⟨hkind, hstreams, hcells, hpointer⟩ := h
  simp only [Program.conclude]
  rw [show m.streams = m'.streams from hstreams]
  rcases m'.streams.flush with ⟨e | _, streams⟩
  · exact ⟨rfl, rfl, hcells, hpointer.imp id fun h => ⟨h.1, rfl⟩⟩
  · exact ⟨hkind, rfl, hcells, hpointer⟩

namespace Program

variable {p p' : Program}

/-- Two programs that end where the same tree does end alike. -/
theorem EndsAs.alike {o : Except Trap Unit} {s : Situation} {r r' : Except RunError Unit × Machine}
    (h : p.EndsAs o s r) (h' : p'.EndsAs o s r') (hcheck : p.boundsCheck = p'.boundsCheck) :
    RunResult.Alike (p.boundsCheck = true ∧ p.StopsOnMove r ∧ p'.StopsOnMove r')
      { outcome := r.1, tape := r.2.tape, streams := r.2.streams }
      { outcome := r'.1, tape := r'.2.tape, streams := r'.2.streams } := by
  cases h with
  | ok =>
      cases h' with
      | ok => exact ⟨rfl, rfl, rfl, .inr ⟨rfl, rfl⟩⟩
  | @trap e _ _ _ _ hlike =>
      cases h' with
      | trap hlike' =>
          cases hlike with
          | same hstream =>
              cases hlike' with
              | same => cases e <;> exact ⟨rfl, rfl, rfl, .inr ⟨rfl, rfl⟩⟩
              | overshoot hcheck' _ he =>
                  -- a failed stream is no pointer outside the memory
                  obtain ⟨cause, rfl⟩ := hstream (hcheck.trans hcheck')
                  simp [Situation.outOfBounds] at he
          | overshoot hchecked hmove he =>
              cases hlike' with
              | same hstream =>
                  obtain ⟨cause, rfl⟩ := hstream (hcheck.symm.trans hchecked)
                  simp [Situation.outOfBounds] at he
              | overshoot _ hmove' =>
                  -- both stand outside the memory, each behind its own run of moves
                  refine ⟨rfl, rfl, rfl, .inl ⟨hchecked, ?_, ?_⟩⟩
                  · exact ⟨_, _, _, rfl, hmove⟩
                  · exact ⟨_, _, _, rfl, hmove'⟩

/-- If one of two programs for the same tree ends, so does the other, and alike. -/
theorem Implements.exists_run_alike {t t' : LoopTree (Action × Nat)} (h : p.Implements t)
    (h' : p'.Implements t') (htree : t.expand = t'.expand)
    (hsize : p.memorySize = p'.memorySize) (hcheck : p.boundsCheck = p'.boundsCheck)
    {fuel : Nat} {before : Tape} {streams : Streams} {r : RunResult}
    (hrun : p.run none fuel before streams = some r) :
    ∃ fuel' r', p'.run none fuel' before streams = some r' ∧
      r.Alike (p.boundsCheck = true ∧ p.TrapsOnMove streams ∧ p'.TrapsOnMove streams) r' := by
  by_cases hroom : p.memorySize.toNat < Tape.cellLimit
  · have hroom' : p'.memorySize.toNat < Tape.cellLimit := hsize ▸ hroom
    have hs := Situation.guarded_start h.memory hroom p.boundsCheck streams
    rw [h.run_eq hroom, Option.map_eq_some_iff] at hrun
    obtain ⟨r, hrun, rfl⟩ := hrun
    -- what one program does, the tree does, and so does the other program
    obtain ⟨o, s, hexec, hends⟩ := h.exec_of_runFor hs hrun
    rw [htree, hcheck, hsize] at hexec
    rw [hcheck, hsize] at hs
    obtain ⟨fuel', r', hrun', hends'⟩ := h'.runFor_of_exec hs hexec
    refine ⟨fuel', conclude r'.1 r'.2, by rw [h'.run_eq hroom', hrun']; rfl, ?_⟩
    refine ((hends.alike hends' hcheck).imp ?_).conclude
    rintro ⟨hchecked, hstop, hstop'⟩
    exact ⟨hchecked, ⟨_, fuel, r, h.load_eq hroom streams, hrun, hstop⟩,
      ⟨_, fuel', r', h'.load_eq hroom' streams, hrun', hstop'⟩⟩
  · -- without room for the memory, nothing happens at all
    have hfail : ∀ {p : Program} {fuel : Nat}, ¬ p.memorySize.toNat < Tape.cellLimit →
        p.run none fuel before streams = some
          { outcome := .error (.memoryAllocation p.memorySize.toNat), tape := before, streams } := by
      intro p fuel hroom
      simp only [run, load, Tape.blank?, if_neg hroom]
    rw [hfail hroom] at hrun
    obtain rfl := Option.some.inj hrun
    rw [hsize] at hroom ⊢
    exact ⟨0, _, hfail hroom, rfl, rfl, rfl, .inr ⟨rfl, rfl⟩⟩

/-- Two programs for the same tree both run forever, or both end alike. -/
theorem Implements.diverge_or_alike {t t' : LoopTree (Action × Nat)} (h : p.Implements t)
    (h' : p'.Implements t') (htree : t.expand = t'.expand)
    (hsize : p.memorySize = p'.memorySize) (hcheck : p.boundsCheck = p'.boundsCheck)
    (before : Tape) (streams : Streams) :
    ((∀ fuel, p.run none fuel before streams = none) ∧
      ∀ fuel, p'.run none fuel before streams = none) ∨
    ∃ fuel fuel' r r', p.run none fuel before streams = some r ∧
      p'.run none fuel' before streams = some r' ∧
      r.Alike (p.boundsCheck = true ∧ p.TrapsOnMove streams ∧ p'.TrapsOnMove streams) r' := by
  by_cases hends : ∃ fuel r, p.run none fuel before streams = some r
  · obtain ⟨fuel, r, hrun⟩ := hends
    obtain ⟨fuel', r', hrun', halike⟩ := h.exists_run_alike h' htree hsize hcheck hrun
    exact .inr ⟨fuel, fuel', r, r', hrun, hrun', halike⟩
  · have hnever : ∀ fuel, p.run none fuel before streams = none :=
      fun fuel => Option.eq_none_iff_forall_ne_some.2 fun r hr => hends ⟨fuel, r, hr⟩
    refine .inl ⟨hnever, fun fuel' => Option.eq_none_iff_forall_ne_some.2 fun r' hrun' => ?_⟩
    obtain ⟨fuel, r, hrun, -⟩ :=
      h'.exists_run_alike h htree.symm hsize.symm hcheck.symm hrun'
    exact hends ⟨fuel, r, hrun⟩

/-! ## Invariance -/

section Sources

variable {options options' : CompileOptions} {source source' : String}
  (htarget : options.toTarget = options'.toTarget)
  (hcommands : Command.ofSource source = Command.ofSource source')
  (hlength : (Command.ofSource source).length < 2147483648)
include htarget hcommands hlength

theorem sameReason_of_compile {e : CompileError} (he : compile options source = .error e) :
    ∃ e', compile options' source' = .error e' ∧ e.SameReason e' := by
  have hbrackets := Run.map_fst_brackets_ofSource options.policy source
  rw [hcommands, ← Run.map_fst_brackets_ofSource options'.policy source'] at hbrackets
  have hverdict' := verdict_compile options' (hcommands ▸ hlength)
  rw [← htarget] at hverdict'
  exact (verdict_compile options hlength).sameReason hverdict' hbrackets he

/-- The two programs are code of trees that are the same when their runs are written out. -/
theorem sameTree_of_compile {p : Program} (hp : compile options source = .ok p) :
    ∃ p' t t', compile options' source' = .ok p' ∧ p.Implements t ∧ p'.Implements t' ∧
      t.expand = t'.expand ∧ p.memorySize = p'.memorySize ∧
      p.boundsCheck = options.boundsCheck ∧ p.boundsCheck = p'.boundsCheck := by
  obtain ⟨hmemory, hbalanced⟩ := (verdict_compile options hlength).ok_iff.1 ⟨p, hp⟩
  rw [Run.map_fst_brackets_ofSource] at hbalanced
  obtain ⟨t, p₁, ht, hcompile, hsize, hcheck, himplements⟩ :=
    compile_implements options hmemory hbalanced hlength
  obtain rfl : p = p₁ := Except.ok.inj (hp.symm.trans hcompile)
  rw [hcommands] at hbalanced hlength
  obtain ⟨t', p', ht', hcompile', hsize', hcheck', himplements'⟩ :=
    compile_implements options' (htarget ▸ hmemory) hbalanced hlength
  have htree : t.expand = t'.expand := by
    apply LoopTree.pieces_injective
    rw [ht, ht']
    exact congrArg (·.map (Command.piece id)) hcommands
  refine ⟨p', t, t', hcompile', himplements, himplements', htree, ?_, hcheck, ?_⟩
  · rw [hsize, hsize', htarget]
  · rw [hcheck, hcheck', htarget]

end Sources

/-- Sources with the same commands, compiled for the same target, behave alike whatever their
    comments and policies are: both fail to compile for the same reason, or both compile, and then
    on all streams both run forever or both end alike. -/
theorem comments_policy_irrelevant {options options' : CompileOptions} {source source' : String}
    (htarget : options.toTarget = options'.toTarget)
    (hcommands : Command.ofSource source = Command.ofSource source')
    (hlength : (Command.ofSource source).length < 2 ^ 31 - 1) :
    (∃ e e', Program.compile options source = .error e ∧
      Program.compile options' source' = .error e' ∧ e.SameReason e') ∨
    ∃ p p', Program.compile options source = .ok p ∧ Program.compile options' source' = .ok p' ∧
      ∀ (before : Tape) (streams : Streams),
        ((∀ fuel, p.run none fuel before streams = none) ∧
          ∀ fuel, p'.run none fuel before streams = none) ∨
        ∃ fuel fuel' r r', p.run none fuel before streams = some r ∧
          p'.run none fuel' before streams = some r' ∧
          r.Alike (options.boundsCheck = true ∧ p.TrapsOnMove streams ∧ p'.TrapsOnMove streams)
            r' := by
  have hshort : (Command.ofSource source).length < 2147483648 := by omega
  cases hcompile : compile options source with
  | error e =>
      obtain ⟨e', hcompile', hreason⟩ := sameReason_of_compile htarget hcommands hshort hcompile
      exact .inl ⟨e, e', rfl, hcompile', hreason⟩
  | ok p =>
      obtain ⟨p', t, t', hcompile', himplements, himplements', htree, hsize, hchecked, hcheck⟩ :=
        sameTree_of_compile htarget hcommands hshort hcompile
      refine .inr ⟨p, p', rfl, hcompile', fun before streams => ?_⟩
      rw [← hchecked]
      exact himplements.diverge_or_alike himplements' htree hsize hcheck before streams

/-- Four checked moves out of three cells: as one run, which ends at 4, and as a run of three, which
    ends at 3, before a comment and one more. -/
theorem comments_policy_irrelevant_moves :
    (∃ e e', Program.compile { memorySize := 3, boundsCheck := true, policy := .filtered } ">>>>"
        = .error e ∧
      Program.compile { memorySize := 3, boundsCheck := true } ">>> >" = .error e' ∧
      e.SameReason e') ∨
    ∃ p p', Program.compile { memorySize := 3, boundsCheck := true, policy := .filtered } ">>>>"
        = .ok p ∧
      Program.compile { memorySize := 3, boundsCheck := true } ">>> >" = .ok p' ∧
      ∀ (before : Tape) (streams : Streams),
        ((∀ fuel, p.run none fuel before streams = none) ∧
          ∀ fuel, p'.run none fuel before streams = none) ∨
        ∃ fuel fuel' r r', p.run none fuel before streams = some r ∧
          p'.run none fuel' before streams = some r' ∧
          r.Alike (true = true ∧ p.TrapsOnMove streams ∧ p'.TrapsOnMove streams) r' :=
  comments_policy_irrelevant rfl (by decide) (by decide)

end Program

end Brainfuck
