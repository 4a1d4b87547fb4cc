import Brainfuck.Source.Run

set_option autoImplicit false

/-! # Loop trees

A balanced sequence of brackets and other things is a tree: a sequence of leaves and loops, in which
a loop holds such a sequence again. A tree is written out as pieces and read back from them; reading
back succeeds exactly on the pieces of a tree, and gives that tree. -/

namespace Brainfuck

/-- A command that is not a bracket. -/
inductive Action where
  | increment
  | decrement
  | moveLeft
  | moveRight
  | write
  | read
deriving DecidableEq, Repr

/-- One piece of a sequence with brackets. -/
inductive Piece (α : Type) where
  | leaf (a : α)
  | opening
  | closing
deriving DecidableEq, Repr

/-- A sequence of leaves and loops. -/
inductive LoopTree (α : Type) where
  | done
  | leaf (a : α) (rest : LoopTree α)
  | loop (body rest : LoopTree α)
deriving DecidableEq, Repr

/-- A command as a piece, with the leaf that `f` makes of its action. -/
def Command.piece {α : Type} (f : Action → α) : Command → Piece α
  | .increment => .leaf (f .increment)
  | .decrement => .leaf (f .decrement)
  | .moveLeft => .leaf (f .moveLeft)
  | .moveRight => .leaf (f .moveRight)
  | .write => .leaf (f .write)
  | .read => .leaf (f .read)
  | .loopStart => .opening
  | .loopEnd => .closing

/-- The pieces of a source, one for each command character. -/
def Piece.ofSource (source : String) : List (Piece Action) :=
  (source.toList.filterMap Command.ofSymbol?).map (Command.piece id)

/-- The pieces of a run: a bracket for each time, any other run as a whole. -/
def Run.pieces (r : Run) : List (Piece (Action × Nat)) :=
  match r.command.piece (·, r.count) with
  | .leaf a => [.leaf a]
  | bracket => List.replicate r.count bracket

namespace LoopTree

variable {α : Type}

/-! ## Writing out and reading back -/

/-- The pieces of a tree, in order. -/
def pieces : LoopTree α → List (Piece α)
  | done => []
  | leaf a rest => .leaf a :: rest.pieces
  | loop body rest => .opening :: (body.pieces ++ .closing :: rest.pieces)

/-- One tree behind another. -/
def append : LoopTree α → LoopTree α → LoopTree α
  | done, t => t
  | leaf a rest, t => leaf a (rest.append t)
  | loop body rest, t => loop body (rest.append t)

/-- What reading from the right knows: the tree of the pieces up to the next closing bracket that is
    still to be opened, and the trees behind each of these brackets. -/
abbrev Pending (α : Type) := Option (LoopTree α × List (LoopTree α))

/-- Puts one more piece in front. -/
def prepend : Piece α → Pending α → Pending α
  | _, none => none
  | .leaf a, some (t, outer) => some (leaf a t, outer)
  | .closing, some (t, outer) => some (done, t :: outer)
  | .opening, some (body, t :: outer) => some (loop body t, outer)
  | .opening, some (_, []) => none

/-- The tree of some pieces; `none` if their brackets do not match. -/
def ofPieces? (ps : List (Piece α)) : Option (LoopTree α) :=
  match ps.foldr prepend (some (done, [])) with
  | some (t, []) => some t
  | _ => none

@[simp] theorem append_done (t : LoopTree α) : t.append done = t := by
  induction t with
  | done => rfl
  | leaf a rest ih => rw [append, ih]
  | loop body rest _ ih => rw [append, ih]

/-- Reading the pieces of a tree puts the tree in front. -/
theorem foldr_pieces (t u : LoopTree α) (outer : List (LoopTree α)) :
    t.pieces.foldr prepend (some (u, outer)) = some (t.append u, outer) := by
  induction t generalizing u outer with
  | done => rfl
  | leaf a rest ih => simp [pieces, ih, prepend, append]
  | loop body rest ihbody ihrest =>
    simp [pieces, List.foldr_append, ihbody, ihrest, prepend, append]

theorem ofPieces?_pieces (t : LoopTree α) : ofPieces? t.pieces = some t := by
  simp [ofPieces?, foldr_pieces]

/-- What has been read so far is all there was. -/
theorem pieces_of_foldr {ps : List (Piece α)} {t : LoopTree α} {outer : List (LoopTree α)}
    (h : ps.foldr prepend (some (done, [])) = some (t, outer)) :
    t.pieces ++ outer.flatMap (.closing :: ·.pieces) = ps := by
  induction ps generalizing t outer with
  | nil =>
    simp only [List.foldr_nil, Option.some.injEq, Prod.mk.injEq] at h
    obtain ⟨rfl, rfl⟩ := h
    rfl
  | cons p ps ih =>
    rw [List.foldr_cons] at h
    cases hps : ps.foldr prepend (some (done, [])) with
    | none =>
      rw [hps] at h
      simp [prepend] at h
    | some found =>
      obtain ⟨u, inner⟩ := found
      rw [hps] at h
      have hread := ih hps
      cases p with
      | leaf a =>
        simp only [prepend, Option.some.injEq, Prod.mk.injEq] at h
        obtain ⟨rfl, rfl⟩ := h
        simp [pieces, hread]
      | closing =>
        simp only [prepend, Option.some.injEq, Prod.mk.injEq] at h
        obtain ⟨rfl, rfl⟩ := h
        simpa [pieces] using hread
      | opening =>
        cases inner with
        | nil => simp [prepend] at h
        | cons v inner =>
          simp only [prepend, Option.some.injEq, Prod.mk.injEq] at h
          obtain ⟨rfl, rfl⟩ := h
          simpa [pieces, List.append_assoc] using hread

/-- Reading back succeeds exactly on the pieces of a tree. -/
theorem ofPieces?_eq_some_iff {ps : List (Piece α)} {t : LoopTree α} :
    ofPieces? ps = some t ↔ t.pieces = ps := by
  constructor
  · intro h
    unfold ofPieces? at h
    split at h
    · next u hfold =>
      cases h
      simpa using pieces_of_foldr hfold
    · contradiction
  · rintro rfl
    exact ofPieces?_pieces t

end LoopTree

end Brainfuck
