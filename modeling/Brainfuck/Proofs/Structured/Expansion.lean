import Brainfuck.Structured.LoopTree
import Brainfuck.Proofs.Source.Expansion
import Brainfuck.Proofs.Structured.Brackets

set_option autoImplicit false

/-! # Trees of commands and trees of runs

A source has a tree exactly if its brackets are balanced. It has many trees of runs, since the
policy and the comments decide how commands are grouped, but each of these, with its runs written
out, is the one tree of the source's commands. -/

namespace Brainfuck

/-! ## The brackets among commands, pieces and runs -/

/-- The bracket that a command is, if it is one. -/
def Command.bracket? : Command → Option Bracket
  | .loopStart => some .opening
  | .loopEnd => some .closing
  | _ => none

/-- The bracket that a piece is, if it is one. -/
def Piece.bracket? {α : Type} : Piece α → Option Bracket
  | .leaf _ => none
  | .opening => some .opening
  | .closing => some .closing

/-- The brackets that a run stands for, each with the place of the run. -/
def Run.brackets (r : Run) : List (Bracket × Position) :=
  (r.commands.filterMap Command.bracket?).map (·, r.position)

theorem Run.filterMap_pieces (r : Run) :
    r.pieces.filterMap Piece.bracket? = r.commands.filterMap Command.bracket? := by
  obtain ⟨command, count, position⟩ := r
  cases command <;>
    simp [Run.pieces, Run.commands, Command.piece, Piece.bracket?, Command.bracket?,
      List.filterMap_replicate, List.filterMap_cons]

theorem Run.map_fst_brackets (runs : List Run) :
    (runs.flatMap Run.brackets).map Prod.fst
      = (runs.flatMap Run.commands).filterMap Command.bracket? := by
  induction runs with
  | nil => rfl
  | cons r runs ih =>
      simp only [List.flatMap_cons, List.map_append, List.filterMap_append, ih, Run.brackets,
        List.map_map]
      congr 1
      exact List.map_id _

theorem Run.filterMap_flatMap_pieces (runs : List Run) :
    (runs.flatMap Run.pieces).filterMap Piece.bracket?
      = (runs.flatMap Run.commands).filterMap Command.bracket? := by
  induction runs with
  | nil => rfl
  | cons r runs ih =>
      simp only [List.flatMap_cons, List.filterMap_append, ih, Run.filterMap_pieces]

/-! ## Balanced pieces have a tree -/

/-- The end of a balanced sequence never has more opening brackets than closing ones. -/
theorem Bracket.Balanced.opens_le_closes {bs cs : List Bracket}
    (h : Bracket.Balanced (bs ++ cs)) : opens cs ≤ closes cs := by
  have hbefore := h.closes_take_le bs.length
  have htotal := h.2
  rw [List.take_left] at hbefore
  simp only [Bracket.opens_append, Bracket.closes_append] at htotal
  omega

namespace LoopTree

variable {α : Type}

theorem pieces_injective {t u : LoopTree α} (h : t.pieces = u.pieces) : t = u := by
  have ht := ofPieces?_pieces t
  rw [h, ofPieces?_pieces] at ht
  exact (Option.some.inj ht).symm

/-- Reading from the right goes through as long as no end of the sequence has too many opening
    brackets, and leaves a tree for each closing bracket that is still to be opened. -/
theorem exists_foldr_prepend (ps : List (Piece α))
    (h : ∀ n, Bracket.opens ((ps.drop n).filterMap Piece.bracket?)
      ≤ Bracket.closes ((ps.drop n).filterMap Piece.bracket?)) :
    ∃ t outer, ps.foldr prepend (some (done, [])) = some (t, outer) ∧
      outer.length + Bracket.opens (ps.filterMap Piece.bracket?)
        = Bracket.closes (ps.filterMap Piece.bracket?) := by
  induction ps with
  | nil => exact ⟨done, [], rfl, rfl⟩
  | cons p ps ih =>
      obtain ⟨t, outer, hread, hlength⟩ := ih (fun n => h (n + 1))
      have hall := h 0
      rw [List.drop_zero] at hall
      cases p with
      | leaf a => exact ⟨leaf a t, outer, by simp [hread, prepend], by simpa [Piece.bracket?]⟩
      | closing =>
          refine ⟨done, t :: outer, by simp [hread, prepend], ?_⟩
          simp only [List.filterMap_cons, Piece.bracket?, Bracket.opens_cons_closing,
            Bracket.closes_cons_closing, List.length_cons]
          omega
      | opening =>
          simp only [List.filterMap_cons, Piece.bracket?, Bracket.opens_cons_opening,
            Bracket.closes_cons_opening] at hall
          cases outer with
          | nil =>
              rw [List.length_nil] at hlength
              omega
          | cons u outer =>
              refine ⟨loop t u, outer, by simp [hread, prepend], ?_⟩
              simp only [List.filterMap_cons, Piece.bracket?, Bracket.opens_cons_opening,
                Bracket.closes_cons_opening]
              rw [List.length_cons] at hlength
              omega

theorem exists_pieces_of_balanced {ps : List (Piece α)}
    (h : Bracket.Balanced (ps.filterMap Piece.bracket?)) : ∃ t : LoopTree α, t.pieces = ps := by
  obtain ⟨t, outer, hread, hlength⟩ := exists_foldr_prepend ps (fun n => by
    rw [← List.take_append_drop n ps, List.filterMap_append] at h
    exact h.opens_le_closes)
  have hnil : outer = [] := by
    rw [← h.2] at hlength
    exact List.eq_nil_of_length_eq_zero (by omega)
  refine ⟨t, ofPieces?_eq_some_iff.1 ?_⟩
  rw [ofPieces?, hread, hnil]

/-! ## Writing out the runs of a tree -/

/-- The same leaf `n` times, then `rest`. -/
def leaves (a : α) (rest : LoopTree α) : (n : Nat) → LoopTree α
  | 0 => rest
  | n + 1 => leaf a (leaves a rest n)

/-- A tree of runs with its runs written out. -/
def expand : LoopTree (Action × Nat) → LoopTree Action
  | done => done
  | leaf (a, n) rest => leaves a rest.expand n
  | loop body rest => loop body.expand rest.expand

/-- The pieces of a run of actions, or the bracket as it is. -/
def expandPiece : Piece (Action × Nat) → List (Piece Action)
  | .leaf (a, n) => List.replicate n (.leaf a)
  | .opening => [.opening]
  | .closing => [.closing]

theorem pieces_leaves (a : α) (rest : LoopTree α) (n : Nat) :
    (leaves a rest n).pieces = List.replicate n (.leaf a) ++ rest.pieces := by
  induction n with
  | zero => rfl
  | succ n ih => rw [leaves, pieces, ih, List.replicate_succ, List.cons_append]

theorem pieces_expand (t : LoopTree (Action × Nat)) :
    t.expand.pieces = t.pieces.flatMap expandPiece := by
  induction t with
  | done => rfl
  | leaf run rest ih =>
      obtain ⟨a, n⟩ := run
      simp only [expand, pieces_leaves, pieces, List.flatMap_cons, expandPiece, ih]
  | loop body rest ihbody ihrest =>
      simp only [expand, pieces, List.flatMap_cons, List.flatMap_append, expandPiece, ihbody,
        ihrest, List.singleton_append]

end LoopTree

theorem Run.flatMap_expandPiece_pieces (r : Run) :
    r.pieces.flatMap LoopTree.expandPiece = r.commands.map (Command.piece id) := by
  obtain ⟨command, count, position⟩ := r
  cases command <;>
    simp [Run.pieces, Run.commands, Command.piece, LoopTree.expandPiece, List.flatMap_replicate]

theorem Run.flatMap_expandPiece (runs : List Run) :
    (runs.flatMap Run.pieces).flatMap LoopTree.expandPiece
      = (runs.flatMap Run.commands).map (Command.piece id) := by
  induction runs with
  | nil => rfl
  | cons r runs ih =>
      rw [List.flatMap_cons, List.flatMap_append, ih, Run.flatMap_expandPiece_pieces,
        List.flatMap_cons, List.map_append]

end Brainfuck
