import Brainfuck.Disk.Tree
import Mathlib.Data.List.Basic

set_option autoImplicit false

/-! # Where paths lead in a changed tree

A path is followed through directories, so where it leads to a directory does not depend on the
files of a tree (`FileTree.KeepsDirectories`). What stands at the end of a path is then found under
the place that its slot gives it, in any tree with the same directories. -/

namespace Brainfuck

/-! ## Computations that may fail -/

theorem bind_eq_ok_iff {ε α β : Type} {x : Except ε α} {f : α → Except ε β} {b : β} :
    x >>= f = .ok b ↔ ∃ a, x = .ok a ∧ f a = .ok b := by
  cases x <;> simp [bind, Except.bind]

/-- Past a refusal, its condition does not hold. -/
theorem unless_eq_ok_iff {ε α β : Type} {c : Prop} [Decidable c] {e : ε} {f : α → Except ε β}
    {x : Except ε β} {b : β} :
    (if c then throw e >>= f else x) = .ok b ↔ ¬ c ∧ x = .ok b := by
  by_cases h : c
  · simp [h, throw, throwThe, MonadExceptOf.throw, bind, Except.bind]
  · simp [h]

namespace FileTree

variable {t t' : FileTree} {path : String}

/-- Every directory of the first tree is one of the second. -/
def KeepsDirectories (t t' : FileTree) : Prop :=
  ∀ place, t.get? place = some .directory → t'.get? place = some .directory

/-! ## Following pieces -/

/-- Where a single piece leads. -/
def followPiece (t : FileTree) (here : Place) (piece : String) : Except SystemError Place :=
  t.follow here [piece]

theorem follow_cons (t : FileTree) (here : Place) (piece : String) (rest : List String) :
    t.follow here (piece :: rest) = (t.followPiece here piece).bind fun there =>
      t.follow there rest := by
  simp only [followPiece, follow]
  repeat' split
  all_goals rfl

theorem follow_append (t : FileTree) (here : Place) (pieces pieces' : List String) :
    t.follow here (pieces ++ pieces') = (t.follow here pieces).bind fun there =>
      t.follow there pieces' := by
  induction pieces generalizing here with
  | nil => rfl
  | cons piece rest ih =>
      rw [List.cons_append, follow_cons, follow_cons]
      cases t.followPiece here piece with
      | error e => rfl
      | ok there => exact ih there

/-- Whatever pieces are followed, the way to a directory starts from a directory. -/
theorem directory_of_follow {here there : Place} {pieces : List String}
    (h : t.follow here pieces = .ok there) (hthere : t.get? there = some .directory) :
    t.get? here = some .directory := by
  cases pieces with
  | nil =>
      cases h
      exact hthere
  | cons piece rest =>
      rw [follow] at h
      split at h
      · contradiction
      · contradiction
      · assumption

theorem followPiece_of_keepsDirectories (hkeeps : KeepsDirectories t t') {here there : Place}
    {piece : String} (h : t.followPiece here piece = .ok there)
    (hthere : t.get? there = some .directory) : t'.followPiece here piece = .ok there := by
  have hhere := directory_of_follow h hthere
  simp only [followPiece, follow, hhere, hkeeps here hhere] at h ⊢
  by_cases hidle : Path.isIdle piece = true
  · simpa only [if_pos hidle] using h
  by_cases hup : piece = ".."
  · simpa only [if_neg hidle, if_pos hup] using h
  simp only [if_neg hidle, if_neg hup] at h ⊢
  cases hname : checkName piece with
  | error e =>
      rw [hname] at h
      contradiction
  | ok =>
      simp only [hname] at h
      split at h
      · cases h
        simp only [hkeeps _ hthere, Option.isSome_some, if_true]
      · contradiction

theorem follow_of_keepsDirectories (hkeeps : KeepsDirectories t t') {here there : Place}
    {pieces : List String} (h : t.follow here pieces = .ok there)
    (hthere : t.get? there = some .directory) : t'.follow here pieces = .ok there := by
  induction pieces generalizing here with
  | nil => exact h
  | cons piece rest ih =>
      rw [follow_cons] at h ⊢
      cases hpiece : t.followPiece here piece with
      | error e =>
          rw [hpiece] at h
          contradiction
      | ok between =>
          rw [hpiece] at h
          have hbetween := directory_of_follow h hthere
          rw [followPiece_of_keepsDirectories hkeeps hpiece hbetween]
          exact ih h

/-! ## Slots -/

/-- The pieces of a path up to its last name. -/
def named (path : String) : List String :=
  ((Path.pieces path).reverse.dropWhile (· == "")).reverse

theorem slot_eq_ok_iff {s : Slot} :
    t.slot path = .ok s ↔ checkPath path = .ok () ∧ (named path).getLast? = some s.name ∧
      t.follow (.origin path) (named path).dropLast = .ok s.directory ∧
      t.get? s.directory = some .directory ∧
      s.slashed = decide ((named path).length < (Path.pieces path).length) := by
  have hnamed : ((Path.pieces path).reverse.dropWhile (· == "")).reverse = named path := rfl
  simp only [slot, bind_eq_ok_iff, hnamed]
  constructor
  · rintro ⟨⟨⟩, hpath, h⟩
    split at h
    · contradiction
    · next name hname =>
      obtain ⟨directory, hfollow, hentry⟩ := bind_eq_ok_iff.1 h
      split at hentry
      · next hdir =>
        cases hentry
        exact ⟨hpath, hname, hfollow, hdir, rfl⟩
      · contradiction
      · contradiction
  · rintro ⟨hpath, hname, hfollow, hdir, hslashed⟩
    refine ⟨(), hpath, ?_⟩
    simp only [hname, bind_eq_ok_iff]
    refine ⟨s.directory, hfollow, ?_⟩
    simp only [hdir, ← hslashed]
    rfl

/-- A slot stays a slot as long as no directory goes away. -/
theorem slot_of_keepsDirectories (hkeeps : KeepsDirectories t t') {s : Slot}
    (h : t.slot path = .ok s) : t'.slot path = .ok s := by
  obtain ⟨hpath, hname, hfollow, hdir, hslashed⟩ := slot_eq_ok_iff.1 h
  exact slot_eq_ok_iff.2 ⟨hpath, hname, follow_of_keepsDirectories hkeeps hfollow hdir,
    hkeeps _ hdir, hslashed⟩

/-- A file can stand in the slot. -/
structure Slot.Fits (s : Slot) : Prop where
  notSlashed : s.slashed = false
  notDot : s.name ≠ "."
  notUp : s.name ≠ ".."
  short : checkName s.name = .ok ()

theorem named_eq_pieces (h : ¬ (named path).length < (Path.pieces path).length) :
    named path = Path.pieces path := by
  have hsuffix := List.dropWhile_suffix (l := (Path.pieces path).reverse) (· == "")
  have hle := hsuffix.length_le
  simp only [named, List.length_reverse] at h hle
  rw [named, hsuffix.eq_of_length (by simp only [List.length_reverse]; omega), List.reverse_reverse]

theorem ne_empty_of_getLast?_named {name : String} (h : (named path).getLast? = some name) :
    name ≠ "" := by
  rintro rfl
  rw [named, List.getLast?_reverse] at h
  have hfirst := List.head?_dropWhile_not (· == "") (Path.pieces path).reverse
  rw [h] at hfirst
  simp at hfirst

/-- What stands in a slot is what its path leads to. -/
theorem resolve_of_slot {s : Slot} (h : t.slot path = .ok s) (hfits : s.Fits)
    (hentry : (t.get? s.place).isSome) : t.resolve path = .ok s.place := by
  obtain ⟨hpath, hname, hfollow, hdir, hslashed⟩ := slot_eq_ok_iff.1 h
  rw [hfits.notSlashed] at hslashed
  have hpieces := named_eq_pieces (of_decide_eq_false hslashed.symm)
  have hne := ne_empty_of_getLast?_named hname
  have hsplit : Path.pieces path = (named path).dropLast ++ [s.name] := by
    rw [← hpieces, List.dropLast_append_getLast? _ hname]
  have hlast : t.follow s.directory [s.name] = .ok s.place := by
    have hidle : ¬ Path.isIdle s.name = true := by
      simp [Path.isIdle, hne, hfits.notDot]
    simp only [follow, hdir, if_neg hidle, if_neg hfits.notUp, hfits.short]
    exact if_pos hentry
  have hnonempty : path ≠ "" := by
    rintro rfl
    simp [named, Path.pieces, Path.split] at hname
  show (checkPath path).bind _ = _
  rw [hpath]
  show (if path = "" then _ else _) = _
  rw [if_neg hnonempty, hsplit, follow_append, hfollow]
  exact hlast

end FileTree

end Brainfuck
