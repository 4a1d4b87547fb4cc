import Brainfuck.Proofs.Source.Expansion

set_option autoImplicit false

/-! # Blocks of equal characters

Under the adjacent policy the runs of a source can be read off its characters one index at a time: a
run starts where a command character follows another character, or none, and it is as long as this
character goes on (`Run.blockAt?`). Its place is a matter of the newlines before it
(`Position.behind`).

The scan meets the characters in order. All that it will find in the rest of a source are the blocks
that start there, and the rest of the block that it is in (`Scan.foldl_read_adjacent`). -/

namespace Brainfuck

/-! ## Places and blocks, by the characters before and after them -/

/-- The place of the character behind these: a line for each newline among them, and a column for
    each character behind the last newline. -/
def Position.behind (before : List Char) : Position where
  line := 1 + before.count '\n'
  col := 1 + (before.reverse.takeWhile (· != '\n')).length

theorem Position.behind_append_singleton (before : List Char) (c : Char) :
    behind (before ++ [c]) = (behind before).advance c := by
  unfold behind advance
  by_cases hc : c = '\n'
  · subst hc
    simp [Nat.add_assoc]
  · simp [hc, Nat.add_assoc]

/-- The block of a command that starts at this index, if one does: the character there stands for
    the command, and there is no such character right before it. -/
def Run.blockAt? (chars : List Char) (i : Nat) : Option Run :=
  match chars[i]? with
  | none => none
  | some c =>
    if i ≠ 0 ∧ chars[i - 1]? = some c then none
    else (Command.ofSymbol? c).map fun command =>
      { command, count := ((chars.drop i).takeWhile (· == c)).length,
        position := .behind (chars.take i) }

theorem Run.blockAt?_append_cons (before rest : List Char) (c : Char) :
    blockAt? (before ++ c :: rest) before.length
      = if before.getLast? = some c then none
        else (Command.ofChar? c).map fun command =>
          { command, count := (rest.takeWhile (· == c)).length + 1,
            position := .behind before } := by
  have hprevious : (before.length ≠ 0 ∧ (before ++ c :: rest)[before.length - 1]? = some c)
      ↔ before.getLast? = some c := by
    by_cases hbefore : before = []
    · simp [hbefore]
    · have hpos : 0 < before.length := List.length_pos_iff.2 hbefore
      rw [List.getElem?_append_left (by omega), List.getLast?_eq_getElem?]
      exact and_iff_right (by omega)
  unfold blockAt?
  rw [Command.ofSymbol?_eq_ofChar?, List.getElem?_append_right (Nat.le_refl _), Nat.sub_self,
    List.getElem?_cons_zero]
  simp only [hprevious, List.drop_left, List.take_left, List.takeWhile_cons, beq_self_eq_true,
    if_true, List.length_cons]

/-! ## The scan, block by block -/

namespace Scan

/-- The scan stands behind these characters. -/
structure Behind (s : Scan) (before : List Char) : Prop where
  position : s.position = .behind before
  previous : s.previous = before.getLast?
  tracks : s.Tracks before

theorem behind_start : Behind (start .start) [] :=
  ⟨rfl, rfl, tracks_start _⟩

theorem Behind.read {s : Scan} {before : List Char} (h : s.Behind before) (policy : RunPolicy)
    (c : Char) : (s.read policy c).Behind (before ++ [c]) := by
  refine ⟨?_, ?_, h.tracks.read policy c⟩
  · rw [Position.behind_append_singleton, ← h.position]
    rfl
  · rw [List.getLast?_append, List.getLast?_singleton, Option.some_or]
    rfl

/-- How many of the characters to come still belong to the block of the one before them. -/
def carried (previous : Option Char) (rest : List Char) : Nat :=
  match previous with
  | none => 0
  | some c => if (Command.ofChar? c).isSome then (rest.takeWhile (· == c)).length else 0

/-- The newest run is that much longer. -/
def grow (n : Nat) : List Run → List Run
  | [] => []
  | r :: older => { r with count := r.count + n } :: older

theorem grow_zero (runs : List Run) : grow 0 runs = runs := by
  rcases runs with - | ⟨r, older⟩ <;> rfl

theorem grow_grow (m n : Nat) (runs : List Run) : grow n (grow m runs) = grow (m + n) runs := by
  rcases runs with - | ⟨r, older⟩
  · rfl
  · simp [grow, Nat.add_assoc]

theorem carried_nil (previous : Option Char) : carried previous [] = 0 := by
  unfold carried
  rcases previous with - | c
  · rfl
  · simp

/-- Another character than the one before it ends the block. -/
theorem carried_of_ne {previous : Option Char} {c : Char} (h : previous ≠ some c)
    (rest : List Char) : carried previous (c :: rest) = 0 := by
  unfold carried
  rcases previous with - | d
  · rfl
  · have hne : (c == d) = false := by
      rw [beq_eq_false_iff_ne]
      intro hcd
      exact h (by rw [hcd])
    simp [hne]

theorem carried_of_eq_none {c : Char} (hc : Command.ofChar? c = none) (rest : List Char) :
    carried (some c) rest = 0 := by
  simp [carried, hc]

theorem carried_of_eq_some {c : Char} {k : Command} (hc : Command.ofChar? c = some k)
    (rest : List Char) : carried (some c) rest = (rest.takeWhile (· == c)).length := by
  simp [carried, hc]

theorem carried_cons_self {c : Char} {k : Command} (hc : Command.ofChar? c = some k)
    (rest : List Char) :
    carried (some c) (c :: rest) = 1 + (rest.takeWhile (· == c)).length := by
  simp [carried, hc, Nat.add_comm]

/-- What a command does to the runs: the newest one grows if the same character stands before it,
    and otherwise a new one opens. -/
theorem Behind.record_adjacent {s : Scan} {before : List Char} (h : s.Behind before) {c : Char}
    {k : Command} (hc : Command.ofChar? c = some k) :
    s.record .adjacent c k
      = if before.getLast? = some c then grow 1 s.runs else ⟨k, 1, .behind before⟩ :: s.runs := by
  unfold record
  by_cases hsame : before.getLast? = some c
  · obtain ⟨r, older, hruns, -⟩ := h.tracks.newest c k (h.previous.trans hsame) hc
    rw [if_pos hsame, hruns]
    simp [continues, h.previous, hsame, grow]
  · rw [if_neg hsame, ← h.position]
    rcases s.runs with - | ⟨r, older⟩
    · rfl
    · simp [continues, h.previous, hsame]

/-- The runs after the rest of a source are the blocks that start there, in front of the runs so
    far, of which the newest takes what still belongs to it. -/
theorem foldl_read_adjacent (rest : List Char) :
    ∀ {s : Scan} {before : List Char}, s.Behind before →
      (rest.foldl (Scan.read .adjacent) s).runs
        = ((List.range' before.length rest.length).filterMap
              (Run.blockAt? (before ++ rest))).reverse
          ++ grow (carried before.getLast? rest) s.runs := by
  induction rest with
  | nil =>
      intro s before h
      simp [carried_nil, grow_zero]
  | cons c rest ih =>
      intro s before h
      have hlast : (before ++ [c]).getLast? = some c := by simp
      have hrest := ih (h.read .adjacent c)
      rw [hlast, List.append_assoc, List.singleton_append, List.length_append,
        List.length_singleton] at hrest
      rw [List.foldl_cons, hrest, List.length_cons, List.range'_succ, List.filterMap_cons,
        Run.blockAt?_append_cons]
      rcases hc : Command.ofChar? c with - | k
      · have hne : carried before.getLast? (c :: rest) = 0 := by
          by_cases hsame : before.getLast? = some c
          · rw [hsame, carried_of_eq_none hc]
          · exact carried_of_ne hsame rest
        have hruns : (s.read .adjacent c).runs = s.runs := by simp only [Scan.read, hc]
        rw [carried_of_eq_none hc, hne, hruns, Option.map_none, ite_self]
      · have hruns : (s.read .adjacent c).runs = s.record .adjacent c k := by
          simp only [Scan.read, hc]
        rw [hruns, h.record_adjacent hc, carried_of_eq_some hc]
        by_cases hsame : before.getLast? = some c
        · rw [if_pos hsame, if_pos hsame, hsame, carried_cons_self hc, grow_grow]
        · rw [if_neg hsame, if_neg hsame, carried_of_ne hsame, grow_zero, grow, Option.map_some,
            List.reverse_cons, List.append_assoc, Nat.add_comm 1]
          rfl

end Scan

/-! ## Whole sources -/

namespace Run

/-- Under the adjacent policy the runs of a source are its blocks, one for each index at which one
    starts, in order, and none of them is empty. -/
theorem ofSource_adjacent_eq_blocks (source : String) :
    ofSource .adjacent source
      = (List.range source.toList.length).filterMap (blockAt? source.toList) ∧
    ∀ r ∈ ofSource .adjacent source, 1 ≤ r.count := by
  have hruns := Scan.foldl_read_adjacent source.toList Scan.behind_start
  rw [List.getLast?_nil, List.nil_append, List.length_nil, ← List.range_eq_range'] at hruns
  refine ⟨?_, fun r hr => count_pos_of_mem_ofSource hr⟩
  show ((source.toList.foldl (Scan.read .adjacent) (.start .start)).runs).reverse = _
  rw [hruns]
  simp [Scan.start, Scan.grow]

end Run

end Brainfuck
