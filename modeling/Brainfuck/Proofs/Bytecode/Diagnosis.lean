import Brainfuck.Proofs.Bytecode.Generation
import Brainfuck.Proofs.Structured.Expansion
import Mathlib.Algebra.Ring.Nat

set_option autoImplicit false

/-! # Exact diagnosis of brackets

Whether runs have a program is a matter of their brackets alone, and if they have none, the error
is the one that counting brackets gives (`Verdict`). On the way to this verdict the generator never
runs into an error of its own: a loop that is still open has an exit without a place, and no two
open loops share an exit (`Codegen.LoopsOpen`), so that every label can be marked when it is time to
mark it. -/

namespace Brainfuck

/-! ## The loops that are open -/

namespace Codegen

/-- The exits of the open loops are different labels, none of which has its place. -/
structure LoopsOpen (g : Codegen) : Prop where
  exits : ∀ l ∈ g.loops, g.assembly.places[l.exit.index]? = some none
  distinct : (g.loops.map (·.exit.index)).Nodup

theorem loopsOpen_start : LoopsOpen start where
  exits := by intro l hl; exact absurd hl (by simp [start])
  distinct := List.nodup_nil

theorem LoopsOpen.exit_lt {g : Codegen} (h : g.LoopsOpen) {l : OpenLoop} (hl : l ∈ g.loops) :
    l.exit.index < g.assembly.places.size :=
  (Array.getElem?_eq_some_iff.1 (h.exits l hl)).1

theorem LoopsOpen.opened {g : Codegen} (h : g.LoopsOpen) (p : Position) :
    LoopsOpen { assembly := g.assembly.opened, loops := .after g.assembly p :: g.loops } := by
  refine ⟨?_, ?_⟩
  · intro l hl
    rw [Assembly.getElem?_places_opened]
    rcases List.mem_cons.1 hl with rfl | hl
    · exact if_pos rfl
    · have hlt := h.exit_lt hl
      rw [if_neg (by omega), if_neg (by omega)]
      exact h.exits l hl
  · rw [List.map_cons, List.nodup_cons]
    refine ⟨?_, h.distinct⟩
    intro hmem
    obtain ⟨l, hl, heq⟩ := List.mem_map.1 hmem
    have hlt := h.exit_lt hl
    simp only [OpenLoop.after] at heq
    omega

theorem LoopsOpen.closed {g : Codegen} (h : g.LoopsOpen) {l : OpenLoop} {outer : List OpenLoop}
    (hloops : g.loops = l :: outer) :
    LoopsOpen { assembly := g.assembly.closed l.head l.exit, loops := outer } := by
  have hdistinct := h.distinct
  rw [hloops, List.map_cons, List.nodup_cons] at hdistinct
  refine ⟨?_, hdistinct.2⟩
  intro l' hl'
  have hne : l.exit.index ≠ l'.exit.index := by
    intro heq
    exact hdistinct.1 (List.mem_map.2 ⟨l', hl', heq.symm⟩)
  rw [Assembly.getElem?_places_closed_ne _ _ hne]
  exact h.exits l' (hloops ▸ List.mem_cons_of_mem _ hl')

/-! ## The generator reads brackets with a stack -/

/-- The bracket that a piece is, with its place. -/
def placedBracket? (b : Piece (Action × Nat) × Position) : Option (Bracket × Position) :=
  b.1.bracket?.map (·, b.2)

theorem foldlM_put (placed : List (Piece (Action × Nat) × Position)) :
    ∀ {g : Codegen}, g.LoopsOpen →
      match (placed.filterMap placedBracket?).foldlM Bracket.track (g.loops.map (·.position)) with
      | .ok stack => ∃ g', placed.foldlM put g = .ok g' ∧ g'.loops.map (·.position) = stack
      | .error p => placed.foldlM put g = .error (.unmatchedClose p) := by
  induction placed with
  | nil => intro g _; exact ⟨g, rfl, rfl⟩
  | cons b placed ih =>
      intro g h
      obtain ⟨piece, p⟩ := b
      cases piece with
      | leaf run =>
          obtain ⟨a, n⟩ := run
          exact ih (g := { g with assembly := g.assembly.emitAll (a.code n) })
            ⟨h.exits, h.distinct⟩
      | opening =>
          rw [List.foldlM_cons, put, openLoop_eq]
          exact ih (h.opened p)
      | closing =>
          cases hloops : g.loops with
          | nil =>
              have hclose : g.closeLoop p = .error (.unmatchedClose p) := by
                simp only [closeLoop, hloops]
              rw [List.foldlM_cons, put, hclose]
              rfl
          | cons l outer =>
              have hexit := h.exits l (hloops ▸ List.mem_cons_self)
              rw [List.foldlM_cons, put, closeLoop_eq p hloops hexit]
              exact ih (h.closed hloops)

end Codegen

theorem Run.filterMap_placed (runs : List Run) :
    (runs.flatMap Run.placed).filterMap Codegen.placedBracket? = runs.flatMap Run.brackets := by
  induction runs with
  | nil => rfl
  | cons r runs ih =>
      have hrun : r.placed.filterMap Codegen.placedBracket? = r.brackets := by
        rw [Run.placed, Run.brackets, ← Run.filterMap_pieces, List.filterMap_map,
          List.map_filterMap]
        rfl
      rw [List.flatMap_cons, List.filterMap_append, ih, hrun, List.flatMap_cons]

/-! ## How long the code is -/

/-- How many instructions a run stands for. -/
def Run.instructions (r : Run) : Nat :=
  match r.command with
  | .increment | .decrement | .moveLeft | .moveRight => 1
  | .write | .read | .loopStart | .loopEnd => r.count

/-- How many instructions a piece stands for. -/
def Piece.instructions : Piece (Action × Nat) → Nat
  | .leaf (a, n) => (a.code n).length
  | .opening | .closing => 1

theorem LoopTree.length_code (t : LoopTree (Action × Nat)) :
    t.code.length = (t.pieces.map Piece.instructions).sum := by
  induction t with
  | done => rfl
  | leaf run rest ih =>
      rw [code, pieces, List.length_append, List.map_cons, List.sum_cons, ih]
      rfl
  | loop body rest ihbody ihrest =>
      simp only [code, pieces, List.length_append, length_loopCode, List.map_cons,
        List.map_append, List.sum_cons, List.sum_append, ihbody, ihrest, Piece.instructions]
      omega

theorem Run.sum_instructions_pieces (r : Run) :
    (r.pieces.map Piece.instructions).sum = r.instructions := by
  obtain ⟨command, count, position⟩ := r
  cases command <;> simp [Run.pieces, Command.piece, Piece.instructions, Run.instructions,
    Action.code]

theorem LoopTree.length_code_of_pieces {t : LoopTree (Action × Nat)} {runs : List Run}
    (ht : t.pieces = runs.flatMap Run.pieces) :
    t.code.length = (runs.map Run.instructions).sum := by
  rw [length_code, ht]
  clear ht
  induction runs with
  | nil => rfl
  | cons r runs ih =>
      rw [List.flatMap_cons, List.map_append, List.sum_append, ih, Run.sum_instructions_pieces,
        List.map_cons, List.sum_cons]

/-- A run has no more instructions than commands, unless it is empty. -/
theorem Run.sum_instructions_le {runs : List Run} (h : ∀ r ∈ runs, 0 < r.count) :
    (runs.map Run.instructions).sum ≤ (runs.flatMap Run.commands).length := by
  induction runs with
  | nil => exact Nat.le_refl 0
  | cons r runs ih =>
      have hrun : r.instructions ≤ r.count := by
        have hpos := h r List.mem_cons_self
        unfold Run.instructions
        split <;> omega
      have hrest := ih (fun r' hr' => h r' (List.mem_cons_of_mem _ hr'))
      rw [List.map_cons, List.sum_cons, List.flatMap_cons, List.length_append, Run.commands,
        List.length_replicate]
      omega

theorem Run.sum_instructions_ofSource_le (policy : RunPolicy) (source : String) :
    ((ofSource policy source).map instructions).sum ≤ (Command.ofSource source).length := by
  rw [← flatMap_commands_ofSource policy source]
  exact sum_instructions_le (fun r hr => count_pos_of_mem_ofSource hr)

/-! ## The verdict -/

/-- The verdict on a list of brackets, each with the place of its run, for a program of
    `memorySize` cells: which error there must be, where it must point, and when there must be
    none. -/
structure Verdict (memorySize : UInt64) (bs : List (Bracket × Position))
    (result : Except CompileError Program) : Prop where
  zeroMemory_iff : result = .error .zeroMemory ↔ memorySize = 0
  unmatchedClose_iff : (∃ p, result = .error (.unmatchedClose p)) ↔
    memorySize ≠ 0 ∧ ∃ n, Bracket.Surplus (bs.map Prod.fst) n
  unmatchedClose_position : ∀ p, result = .error (.unmatchedClose p) → Bracket.FirstSurplus bs p
  unmatchedOpen_iff : (∃ p, result = .error (.unmatchedOpen p)) ↔
    memorySize ≠ 0 ∧ (∀ n, ¬ Bracket.Surplus (bs.map Prod.fst) n) ∧
      Bracket.closes (bs.map Prod.fst) < Bracket.opens (bs.map Prod.fst)
  unmatchedOpen_position : ∀ p, result = .error (.unmatchedOpen p) → Bracket.LastUnclosed bs p
  ok_iff : (∃ program, result = .ok program) ↔
    memorySize ≠ 0 ∧ Bracket.Balanced (bs.map Prod.fst)
  not_assembly : ∀ cause, result ≠ .error (.assembly cause)

section

variable {memorySize : UInt64} {bs : List (Bracket × Position)}

theorem Verdict.of_zeroMemory (h : memorySize = 0) : Verdict memorySize bs (.error .zeroMemory) := by
  constructor <;> simp [h]

theorem Verdict.of_firstSurplus (hmemory : memorySize ≠ 0) {p : Position}
    (h : Bracket.FirstSurplus bs p) : Verdict memorySize bs (.error (.unmatchedClose p)) := by
  obtain ⟨i, hget, hsurplus, hfirst⟩ := h
  refine ⟨by simpa using hmemory, ?_, ?_, ?_, by simp, ?_, by simp⟩
  · exact ⟨fun _ => ⟨hmemory, i + 1, hsurplus⟩, fun _ => ⟨p, rfl⟩⟩
  · intro q hq
    obtain rfl : p = q := by simpa using hq
    exact ⟨i, hget, hsurplus, hfirst⟩
  · refine ⟨fun ⟨q, hq⟩ => by simp at hq, ?_⟩
    rintro ⟨-, hno, -⟩
    exact absurd hsurplus (hno (i + 1))
  · refine ⟨fun ⟨program, hprogram⟩ => by simp at hprogram, ?_⟩
    rintro ⟨-, hbalanced⟩
    exact absurd hsurplus (hbalanced.1 (i + 1))

theorem Verdict.of_nested (hmemory : memorySize ≠ 0) {p : Position} {stack : List Position}
    (h : Bracket.Nested bs (p :: stack)) : Verdict memorySize bs (.error (.unmatchedOpen p)) := by
  have hno : ∀ n, ¬ Bracket.Surplus (bs.map Prod.fst) n :=
    fun n => Nat.not_lt.2 (h.closes_take_le n)
  have hmore : Bracket.closes (bs.map Prod.fst) < Bracket.opens (bs.map Prod.fst) := by
    rw [h.opens_eq, List.length_cons]
    omega
  refine ⟨by simpa using hmemory, ?_, by simp, ?_, ?_, ?_, by simp⟩
  · refine ⟨fun ⟨q, hq⟩ => by simp at hq, ?_⟩
    rintro ⟨-, n, hsurplus⟩
    exact absurd hsurplus (hno n)
  · exact ⟨fun _ => ⟨hmemory, hno, hmore⟩, fun _ => ⟨p, rfl⟩⟩
  · intro q hq
    obtain rfl : p = q := by simpa using hq
    exact h.lastUnclosed
  · refine ⟨fun ⟨program, hprogram⟩ => by simp at hprogram, ?_⟩
    rintro ⟨-, hbalanced⟩
    have htotal := hbalanced.2
    omega

theorem Verdict.of_balanced (hmemory : memorySize ≠ 0)
    (h : Bracket.Balanced (bs.map Prod.fst)) (program : Program) :
    Verdict memorySize bs (.ok program) := by
  refine ⟨by simpa using hmemory, ?_, by simp, ?_, by simp, ?_, by simp⟩
  · refine ⟨fun ⟨q, hq⟩ => by simp at hq, ?_⟩
    rintro ⟨-, n, hsurplus⟩
    exact absurd hsurplus (h.1 n)
  · refine ⟨fun ⟨q, hq⟩ => by simp at hq, ?_⟩
    rintro ⟨-, -, hmore⟩
    have htotal := h.2
    omega
  · exact ⟨fun _ => ⟨hmemory, h⟩, fun _ => ⟨program, rfl⟩⟩

end

/-- With memory to work on, there are three ways to end, one for each way to read the brackets. -/
theorem Program.ofRuns_cases {target : Target} (hmemory : target.memorySize ≠ 0)
    {runs : List Run} (hcode : (runs.map Run.instructions).sum < 2147483648) :
    (∃ p, ofRuns target runs = .error (.unmatchedClose p) ∧
      Bracket.FirstSurplus (runs.flatMap Run.brackets) p) ∨
    (∃ p stack, ofRuns target runs = .error (.unmatchedOpen p) ∧
      Bracket.Nested (runs.flatMap Run.brackets) (p :: stack)) ∨
    (∃ program, ofRuns target runs = .ok program ∧
      Bracket.Balanced ((runs.flatMap Run.brackets).map Prod.fst)) := by
  have hread := Bracket.foldlM_track (runs.flatMap Run.brackets)
  have hgenerate := Codegen.foldlM_put (runs.flatMap Run.placed) Codegen.loopsOpen_start
  rw [Run.filterMap_placed] at hgenerate
  have hrun : ofRuns target runs
      = ((runs.flatMap Run.placed).foldlM Codegen.put .start >>= fun g => g.finish >>= fun ops =>
          .ok { memorySize := target.memorySize, boundsCheck := target.boundsCheck, ops }) := by
    rw [ofRuns, if_neg hmemory, Codegen.foldlM_run_eq]
    rfl
  cases htrack : (runs.flatMap Run.brackets).foldlM Bracket.track [] with
  | error p =>
      simp only [Codegen.start, List.map_nil, htrack] at hread hgenerate
      refine .inl ⟨p, ?_, hread⟩
      rw [hrun]
      simp only [Codegen.start, hgenerate]
      rfl
  | ok stack =>
      simp only [Codegen.start, List.map_nil, htrack] at hread hgenerate
      obtain ⟨g, hg, hstack⟩ := hgenerate
      cases stack with
      | cons p stack =>
          obtain ⟨l, outer, hloops, rfl, -⟩ := List.map_eq_cons_iff.1 hstack
          refine .inr (.inl ⟨l.position, stack, ?_, hread⟩)
          rw [hrun]
          simp only [Codegen.start, hg]
          show (g.finish >>= _) = _
          simp only [Codegen.finish, hloops]
          rfl
      | nil =>
          have hbalanced := hread.balanced
          obtain ⟨t, ht⟩ : ∃ t : LoopTree (Action × Nat), t.pieces = runs.flatMap Run.pieces := by
            apply LoopTree.exists_pieces_of_balanced
            rw [Run.filterMap_flatMap_pieces, ← Run.map_fst_brackets]
            exact hbalanced
          refine .inr (.inr ⟨_, ofRuns_eq_ok hmemory ht ?_, hbalanced⟩)
          rw [LoopTree.length_code_of_pieces ht]
          exact hcode

theorem Program.verdict_ofRuns (target : Target) {runs : List Run}
    (hcode : (runs.map Run.instructions).sum < 2147483648) :
    Verdict target.memorySize (runs.flatMap Run.brackets) (ofRuns target runs) := by
  by_cases hmemory : target.memorySize = 0
  · rw [ofRuns, if_pos hmemory]
    exact .of_zeroMemory hmemory
  · rcases ofRuns_cases hmemory hcode with ⟨p, hresult, hfirst⟩ | ⟨p, stack, hresult, hnested⟩ |
      ⟨program, hresult, hbalanced⟩
    · rw [hresult]
      exact .of_firstSurplus hmemory hfirst
    · rw [hresult]
      exact .of_nested hmemory hnested
    · rw [hresult]
      exact .of_balanced hmemory hbalanced program

theorem Program.verdict_compile (options : CompileOptions) {source : String}
    (hlength : (Command.ofSource source).length < 2147483648) :
    Verdict options.memorySize ((Run.ofSource options.policy source).flatMap Run.brackets)
      (compile options source) := by
  have hle := Run.sum_instructions_ofSource_le options.policy source
  exact verdict_ofRuns options.toTarget (by omega)

/-- Runs and sources get exactly the verdict that counting their brackets gives, as long as no jump
    can be too far. -/
theorem Program.bracket_verdict_exact :
    (∀ (target : Target) (runs : List Run), (runs.map Run.instructions).sum < 2 ^ 31 →
      Verdict target.memorySize (runs.flatMap Run.brackets) (Program.ofRuns target runs)) ∧
    ∀ (options : CompileOptions) (source : String),
      (Command.ofSource source).length < 2 ^ 31 - 1 →
      Verdict options.memorySize ((Run.ofSource options.policy source).flatMap Run.brackets)
        (Program.compile options source) := by
  refine ⟨fun target runs hcode => verdict_ofRuns target hcode, ?_⟩
  intro options source hsource
  exact verdict_compile options (by omega)

/-- Two runs of brackets that open three loops and close one, and a source that closes one loop too
    many behind a comment. -/
theorem Program.bracket_verdict_exact_nested :
    Verdict 1 (([⟨.loopStart, 3, ⟨1, 1⟩⟩, ⟨.loopEnd, 1, ⟨1, 4⟩⟩] : List Run).flatMap Run.brackets)
      (Program.ofRuns { memorySize := 1 } [⟨.loopStart, 3, ⟨1, 1⟩⟩, ⟨.loopEnd, 1, ⟨1, 4⟩⟩]) ∧
    Verdict 30000 ((Run.ofSource .filtered "+[>]x]").flatMap Run.brackets)
      (Program.compile { policy := .filtered } "+[>]x]") :=
  ⟨bracket_verdict_exact.1 { memorySize := 1 } _ (by decide),
    bracket_verdict_exact.2 { policy := .filtered } _ (by decide)⟩

end Brainfuck
