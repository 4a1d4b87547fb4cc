import Brainfuck.Proofs.Bytecode.Diagnosis
import Brainfuck.Proofs.Machine.Simulation

set_option autoImplicit false

/-! # Compiled programs do what their source says

Compiling groups the commands of a source into runs, and the program holds the code of the tree of
these runs, from its first instruction up to `halt` (`Program.Implements`). Such a program ends
exactly if the tree with its runs written out does, and in the same way (`Program.EndsAs`). For
unchecked moves "the same way" leaves nothing open, so that the program can be told from the
commands of the source, executed one by one, only by the place that its errors name. -/

namespace Brainfuck

/-! ## Programs that hold a tree -/

namespace Program

/-- The program is the code of a tree of runs, followed by `halt`. -/
structure Implements (p : Program) (t : LoopTree (Action × Nat)) : Prop where
  memory : p.memorySize ≠ 0
  start : p.pointerStart = 0
  fits : t.Fits
  code : p.HasCode 0 t.code
  halt : p.ops[t.code.length]? = some .halt

/-- How a program may end where a tree ends with an outcome in a situation. -/
inductive EndsAs (p : Program) :
    Except Trap Unit → Situation → Except RunError Unit × Machine → Prop
  | ok {s : Situation} (ip steps : Nat) : EndsAs p (.ok ()) s (.ok (), s.machineAt ip steps)
  | trap {e e' : Trap} {s s' : Situation} {ip : Nat} (h : p.TrapsLike ip e s e' s')
      (steps : Nat) : EndsAs p (.error e) s (.error (e'.runError ip), s'.machineAt ip steps)

namespace Implements

variable {p : Program} {t : LoopTree (Action × Nat)} {s s' : Situation} {o : Except Trap Unit}

theorem runFor_of_exec (h : p.Implements t) (hs : s.Guarded p.boundsCheck)
    (hexec : LoopTree.Exec p.boundsCheck t.expand s o s') :
    ∃ fuel r, Machine.runFor p none fuel (s.machineAt 0 0) = some r ∧ p.EndsAs o s' r := by
  have hreal := hexec.realizes h.fits h.code hs
  cases o with
  | error e =>
      obtain ⟨fuel, ip, steps, e', s'', hrun, hlike⟩ := hreal 0
      exact ⟨fuel, _, hrun, .trap hlike steps⟩
  | ok =>
      -- behind the code of the tree stands `halt`
      obtain ⟨k, steps, hk⟩ := hreal 0
      rw [Nat.zero_add] at hk
      have hlast : (s'.machineAt t.code.length steps).step p none
          = .done (.ok ()) (s'.machineAt t.code.length (steps + 1)) :=
        Machine.step_machineAt h.halt
      refine ⟨k + 1, _, ?_, .ok t.code.length (steps + 1)⟩
      rw [Machine.runFor_after? hk, Machine.runFor_of_step_done hlast]

theorem exec_of_runFor (h : p.Implements t) (hs : s.Guarded p.boundsCheck) {fuel : Nat}
    {r : Except RunError Unit × Machine}
    (hrun : Machine.runFor p none fuel (s.machineAt 0 0) = some r) :
    ∃ o s', LoopTree.Exec p.boundsCheck t.expand s o s' ∧ p.EndsAs o s' r := by
  obtain ⟨o, s', hexec⟩ := LoopTree.exists_exec_of_runFor h.fits h.code hs hrun
  obtain ⟨fuel', r', hrun', hends⟩ := h.runFor_of_exec hs hexec
  obtain rfl := Machine.runFor_unique hrun hrun'
  exact ⟨o, s', hexec, hends⟩

end Implements

end Program

/-! ## Compiling -/

theorem LoopTree.fits_of_pieces {t : LoopTree (Action × Nat)}
    (hcode : t.code.length < 2147483648)
    (hcounts : ∀ a n, .leaf (a, n) ∈ t.pieces → 0 < n ∧ n ≤ Tape.cellLimit) : t.Fits := by
  induction t with
  | done => trivial
  | leaf run rest ih =>
      rw [code, List.length_append] at hcode
      refine ⟨hcounts run.1 run.2 List.mem_cons_self, ih (by omega) fun a n hmem => ?_⟩
      exact hcounts a n (List.mem_cons_of_mem _ hmem)
  | loop body rest ihbody ihrest =>
      rw [code, List.length_append, length_loopCode] at hcode
      refine ⟨by omega, ihbody (by omega) fun a n hmem => ?_, ihrest (by omega) fun a n hmem => ?_⟩
      · exact hcounts a n (by simp [pieces, hmem])
      · exact hcounts a n (by simp [pieces, hmem])

namespace Run

theorem count_of_leaf_mem_pieces {r : Run} {a : Action} {n : Nat}
    (h : .leaf (a, n) ∈ r.pieces) : n = r.count := by
  obtain ⟨command, count, position⟩ := r
  cases command <;> simp_all [pieces, Command.piece]

theorem count_le_length {runs : List Run} {r : Run} (hr : r ∈ runs) :
    r.count ≤ (runs.flatMap commands).length := by
  have hsub : r.commands.Sublist (runs.flatMap commands) :=
    List.sublist_flatten_of_mem (List.mem_map_of_mem hr)
  have hle := hsub.length_le
  rw [commands, List.length_replicate] at hle
  exact hle

end Run

/-- Balanced sources compile, to the code of a tree of runs. -/
theorem Program.compile_implements (options : CompileOptions) {source : String}
    (hmemory : options.memorySize ≠ 0)
    (hbalanced : Bracket.Balanced ((Command.ofSource source).filterMap Command.bracket?))
    (hlength : (Command.ofSource source).length < 2147483648) :
    ∃ t p, t.expand.pieces = Piece.ofSource source ∧ compile options source = .ok p ∧
      p.memorySize = options.memorySize ∧ p.boundsCheck = options.boundsCheck ∧
      p.Implements t := by
  have hcommands := Run.flatMap_commands_ofSource options.policy source
  rw [← hcommands, ← Run.filterMap_flatMap_pieces] at hbalanced
  obtain ⟨t, ht⟩ := LoopTree.exists_pieces_of_balanced hbalanced
  have hinstructions := Run.sum_instructions_ofSource_le options.policy source
  have hcode : t.code.length < 2147483648 := by
    rw [LoopTree.length_code_of_pieces ht]
    omega
  -- no run is longer than the whole source, and the source is shorter than tapes can be
  have hfits : t.Fits := by
    refine LoopTree.fits_of_pieces hcode fun a n hmem => ?_
    rw [ht, List.mem_flatMap] at hmem
    obtain ⟨r, hr, hleaf⟩ := hmem
    obtain rfl := Run.count_of_leaf_mem_pieces hleaf
    have hle := Run.count_le_length hr
    have hlimit : Tape.cellLimit = 4611686018427387904 := by decide
    rw [hcommands] at hle
    exact ⟨Run.count_pos_of_mem_ofSource hr, by omega⟩
  refine ⟨t, _, ?_, ofRuns_eq_ok hmemory ht hcode, rfl, rfl, hmemory, rfl, hfits, ?_, ?_⟩
  · rw [LoopTree.pieces_expand, ht, Run.flatMap_expandPiece, hcommands]
    rfl
  · intro j op hop
    have hlt := (List.getElem?_eq_some_iff.1 hop).1
    simpa [List.getElem?_append_left hlt] using hop
  · simp

/-! ## Whole runs -/

/-- The situation in which a program of `memorySize` cells starts. -/
def Situation.start (memorySize : UInt64) (streams : Streams) : Situation :=
  { tape := { cells := Array.replicate memorySize.toNat 0, pointer := 0 }, streams }

theorem Situation.guarded_start {memorySize : UInt64} (hmemory : memorySize ≠ 0)
    (hroom : memorySize.toNat < Tape.cellLimit) (check : Bool) (streams : Streams) :
    (start memorySize streams).Guarded check := by
  have hpos : 0 < memorySize.toNat := by
    rw [Nat.pos_iff_ne_zero]
    exact fun hzero => hmemory (UInt64.toNat_inj.1 hzero)
  intro _
  simpa [start, Tape.InRange] using ⟨hpos, hroom⟩

namespace Program.Implements

variable {p : Program} {t : LoopTree (Action × Nat)} (h : p.Implements t)
  (hroom : p.memorySize.toNat < Tape.cellLimit)
include h hroom

theorem load_eq (streams : Streams) :
    p.load = .ok (Situation.start p.memorySize streams).tape := by
  simp only [load, Tape.blank?, if_pos hroom, h.start]
  rfl

theorem run_eq (fuel : Nat) (before : Tape) (streams : Streams) :
    p.run none fuel before streams
      = (Machine.runFor p none fuel ((Situation.start p.memorySize streams).machineAt 0 0)).map
          fun r => conclude r.1 r.2 := by
  rw [run, h.load_eq hroom streams]
  rfl

end Program.Implements

/-- The result of a run is what the end of a tree's execution shows: the whole tape, the streams
    with every call that was made, and the same trap if there was one, at some instruction. -/
def RunResult.Shows (r : RunResult) (e : Except Trap Unit × Situation) : Prop :=
  r.tape = e.2.tape ∧ r.streams = e.2.streams ∧
    match e.1 with
    | .ok () => r.outcome = .ok ()
    | .error trap => ∃ ip, r.outcome = .error (trap.runError ip)

theorem RunResult.Shows.unique {r : RunResult} {e e' : Except Trap Unit × Situation}
    (h : r.Shows e) (h' : r.Shows e') : e = e' := by
  obtain ⟨tape, streams, outcome⟩ := r
  obtain ⟨o, ⟨tape₁, streams₁⟩⟩ := e
  obtain ⟨o', ⟨tape₂, streams₂⟩⟩ := e'
  obtain ⟨rfl, rfl, ho⟩ := h
  obtain ⟨rfl, rfl, ho'⟩ := h'
  rcases o with trap | _ <;> rcases o' with trap' | _
  · -- an error names its trap, and besides only the instruction
    obtain ⟨ip, rfl⟩ := ho
    obtain ⟨ip', hsame⟩ := ho'
    have htrap : trap = trap' := by cases trap <;> cases trap' <;> simp_all [Trap.runError]
    rw [htrap]
  · obtain ⟨ip, rfl⟩ := ho
    contradiction
  · obtain ⟨ip', rfl⟩ := ho'
    contradiction
  · rfl

/-- Without checked moves, the machine is in the tree's situation when it ends. -/
theorem Program.EndsAs.shows {p : Program} (hcheck : p.boundsCheck = false)
    {o : Except Trap Unit} {s : Situation} {r : Except RunError Unit × Machine}
    (h : p.EndsAs o s r) :
    RunResult.Shows { outcome := r.1, tape := r.2.tape, streams := r.2.streams } (o, s) := by
  cases h with
  | ok => exact ⟨rfl, rfl, rfl⟩
  | trap hlike =>
      cases hlike with
      | same => exact ⟨rfl, rfl, _, rfl⟩
      | overshoot hchecked =>
          rw [hcheck] at hchecked
          contradiction

/-- The last flush is the same on both sides. -/
theorem RunResult.Shows.conclude {outcome : Except RunError Unit} {m : Machine}
    {o : Except Trap Unit} {s : Situation}
    (h : RunResult.Shows { outcome, tape := m.tape, streams := m.streams } (o, s)) :
    (Program.conclude outcome m).Shows (LoopTree.conclude o s) := by
  obtain ⟨htape, hstreams, houtcome⟩ := h
  simp only [Program.conclude, LoopTree.conclude]
  rw [show m.streams = s.streams from hstreams]
  rcases s.streams.flush with ⟨_ | _, streams⟩
  · exact ⟨htape, rfl, 0, rfl⟩
  · exact ⟨htape, rfl, houtcome⟩

/-! ## Correctness -/

/-- A balanced source compiles, and its program, run on any streams without a step limit, ends with
    a result exactly if executing the commands of the source one by one ends with it. -/
theorem Program.compile_correct {options : CompileOptions} {source : String}
    (hcheck : options.boundsCheck = false) (hmemory : options.memorySize ≠ 0)
    (hroom : options.memorySize.toNat < Tape.cellLimit)
    (hbalanced : Bracket.Balanced ((Command.ofSource source).filterMap Command.bracket?))
    (hlength : (Command.ofSource source).length < 2 ^ 31) :
    ∃ t p, LoopTree.ofPieces? (Piece.ofSource source) = some t ∧
      Program.compile options source = .ok p ∧
      ∀ (before : Tape) (streams : Streams),
        (∀ e, (∃ fuel r, p.run none fuel before streams = some r ∧ r.Shows e) ↔
          ∃ fuel, t.run fuel (.start options.memorySize streams) = some e) ∧
        ∀ fuel r, p.run none fuel before streams = some r → ∃ e, r.Shows e := by
  obtain ⟨t, p, hpieces, hcompile, hsize, hchecked, himplements⟩ :=
    compile_implements options hmemory hbalanced hlength
  refine ⟨t.expand, p, LoopTree.ofPieces?_eq_some_iff.2 hpieces, hcompile, ?_⟩
  intro before streams
  rw [← hsize] at hmemory hroom ⊢
  rw [hcheck] at hchecked
  have hs := Situation.guarded_start hmemory hroom p.boundsCheck streams
  -- each end of the machine is an end of the tree
  have hback : ∀ {fuel r}, p.run none fuel before streams = some r →
      ∃ fuel' e, t.expand.run fuel' (.start p.memorySize streams) = some e ∧ r.Shows e := by
    intro fuel r hrun
    rw [himplements.run_eq hroom, Option.map_eq_some_iff] at hrun
    obtain ⟨r, hrun, rfl⟩ := hrun
    obtain ⟨o, s', hexec, hends⟩ := himplements.exec_of_runFor hs hrun
    rw [hchecked] at hexec
    obtain ⟨fuel', hfuel'⟩ := hexec.complete
    exact ⟨fuel', _, by rw [LoopTree.run, hfuel']; rfl, (hends.shows hchecked).conclude⟩
  refine ⟨fun e => ⟨?_, ?_⟩, ?_⟩
  · rintro ⟨fuel, r, hrun, hshows⟩
    obtain ⟨fuel', e', hfuel', hshows'⟩ := hback hrun
    obtain rfl := hshows.unique hshows'
    exact ⟨fuel', hfuel'⟩
  · rintro ⟨fuel, hfuel⟩
    rw [LoopTree.run, Option.map_eq_some_iff] at hfuel
    obtain ⟨⟨o, s'⟩, hfuel, rfl⟩ := hfuel
    have hexec := LoopTree.exec_sound hfuel
    rw [← hchecked] at hexec
    obtain ⟨fuel', r, hrun, hends⟩ := himplements.runFor_of_exec hs hexec
    refine ⟨fuel', _, ?_, (hends.shows hchecked).conclude⟩
    rw [himplements.run_eq hroom, hrun]
    rfl
  · intro fuel r hrun
    obtain ⟨-, e, -, hshows⟩ := hback hrun
    exact ⟨e, hshows⟩

/-- A program that moves its input to the other of two cells, with a comment in between. -/
theorem Program.compile_correct_moveByte :
    ∃ t p, LoopTree.ofPieces? (Piece.ofSource ",[>+<-] moved >.") = some t ∧
      Program.compile { memorySize := 2, policy := .filtered } ",[>+<-] moved >." = .ok p ∧
      ∀ (before : Tape) (streams : Streams),
        (∀ e, (∃ fuel r, p.run none fuel before streams = some r ∧ r.Shows e) ↔
          ∃ fuel, t.run fuel (.start 2 streams) = some e) ∧
        ∀ fuel r, p.run none fuel before streams = some r → ∃ e, r.Shows e := by
  have hbrackets : (Command.ofSource ",[>+<-] moved >.").filterMap Command.bracket?
      = .opening :: ([] ++ [.closing]) := by decide
  refine @compile_correct { memorySize := 2, policy := .filtered } _ rfl (by decide) (by decide)
    ?_ (by decide)
  rw [hbrackets]
  exact Bracket.balanced_nil.enclose

end Brainfuck
