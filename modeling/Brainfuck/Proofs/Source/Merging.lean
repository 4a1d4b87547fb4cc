import Brainfuck.Proofs.Source.Blocks
import Mathlib.Data.List.Induction

set_option autoImplicit false

/-! # Merging runs of the same command

Under the filtered policy a source is encoded by run lengths: its commands in order, in as few runs
as possible, each at the place where it begins. These are the runs of the adjacent policy, merged
wherever neighbours have the same command (`Run.merge`).

Merging a finished list goes from its end to its front, whereas the scan merges as it goes on, into
its newest run. Both ways come to the same because what happens at one end of a list does not depend
on the other end (`Run.absorb_reverse_join`). Hence a run at the end is merged into what was merged
before it, which is what the scan does with a command (`Scan.record_filtered`). -/

namespace Brainfuck

/-! ## Merging -/

namespace Run

/-- The runs with one more in front, as a part of the first if that has the same command. -/
def join (r : Run) : List Run → List Run
  | [] => [r]
  | next :: rest =>
    if r.command = next.command then { r with count := r.count + next.count } :: rest
    else r :: next :: rest

/-- Neighbours of the same command made one: their counts are added, and the place is the first. -/
def merge (runs : List Run) : List Run := runs.foldr join []

/-- The runs, newest first, with one more, as a part of the newest if that has the same command. -/
def absorb (r : Run) : List Run → List Run
  | [] => [r]
  | newest :: older =>
    if newest.command = r.command then { newest with count := newest.count + r.count } :: older
    else r :: newest :: older

theorem merge_cons (r : Run) (runs : List Run) : merge (r :: runs) = join r (merge runs) := rfl

theorem join_of_eq {r next : Run} (h : r.command = next.command) (rest : List Run) :
    join r (next :: rest) = { r with count := r.count + next.count } :: rest :=
  if_pos h

theorem join_of_ne {r next : Run} (h : r.command ≠ next.command) (rest : List Run) :
    join r (next :: rest) = r :: next :: rest :=
  if_neg h

/-- Neighbours differ in their command after merging. -/
theorem isChain_merge (runs : List Run) :
    (merge runs).IsChain (fun r next => r.command ≠ next.command) := by
  induction runs with
  | nil => exact .nil
  | cons r runs ih =>
      rw [merge_cons]
      rcases hmerged : merge runs with - | ⟨next, rest⟩
      · exact .singleton _
      · rw [hmerged] at ih
        by_cases hsame : r.command = next.command
        · -- the first run has changed its count only
          rw [join_of_eq hsame]
          rcases rest with - | ⟨third, rest⟩
          · exact .singleton _
          · rw [List.isChain_cons_cons] at ih ⊢
            exact ⟨hsame ▸ ih.1, ih.2⟩
        · rw [join_of_ne hsame, List.isChain_cons_cons]
          exact ⟨hsame, ih⟩

/-- One run joins a single run at the front and another at the end. -/
theorem absorb_reverse_join_singleton (first last only : Run) :
    absorb last (join first [only]).reverse
      = (join first (absorb last [only]).reverse).reverse := by
  by_cases hlast : only.command = last.command
  · -- all three may be of the same command
    by_cases hfirst : first.command = last.command
    · simp [join, absorb, hfirst, hlast, Nat.add_assoc]
    · simp [join, absorb, hfirst, hlast]
  · by_cases hfirst : first.command = only.command
    · simp [join, absorb, hfirst, hlast]
    · simp [join, absorb, hfirst, hlast]

/-- One run joins at the front and another at the end: the order does not matter. -/
theorem absorb_reverse_join (first last : Run) (runs : List Run) :
    absorb last (join first runs).reverse
      = (join first (absorb last runs.reverse).reverse).reverse := by
  rcases runs with - | ⟨next, rest⟩
  · by_cases hsame : first.command = last.command
    · simp [join, absorb, hsame]
    · simp [join, absorb, hsame]
  · rcases List.eq_nil_or_concat rest with rfl | ⟨middle, newest, rfl⟩
    · exact absorb_reverse_join_singleton first last next
    · -- the two ends are different runs
      by_cases hfirst : first.command = next.command <;>
        by_cases hlast : newest.command = last.command <;>
        simp [join, absorb, hfirst, hlast]

/-- A run at the end is merged into what was merged before it. -/
theorem reverse_merge_append_singleton (runs : List Run) (last : Run) :
    (merge (runs ++ [last])).reverse = absorb last (merge runs).reverse := by
  induction runs with
  | nil => rfl
  | cons r runs ih =>
      rw [List.cons_append, merge_cons, merge_cons, absorb_reverse_join, ← ih, List.reverse_reverse]

/-- A run that grows after it was merged might as well have been longer before. -/
theorem absorb_absorb {r last : Run} (h : last.command = r.command) (runs : List Run) :
    absorb last (absorb r runs) = absorb { r with count := r.count + last.count } runs := by
  rcases runs with - | ⟨newest, older⟩
  · simp [absorb, h]
  · by_cases hnewest : newest.command = r.command
    · simp [absorb, h, hnewest, Nat.add_assoc]
    · simp [absorb, h, hnewest]

end Run

/-! ## The scan from the beginning -/

namespace Scan

/-- The state of the scan of a source when these are the characters that it has read. -/
def after (policy : RunPolicy) (chars : List Char) : Scan :=
  chars.foldl (Scan.read policy) (.start .start)

theorem after_append_singleton (policy : RunPolicy) (chars : List Char) (c : Char) :
    after policy (chars ++ [c]) = (after policy chars).read policy c := by
  rw [after, List.foldl_append]
  rfl

theorem behind_after (policy : RunPolicy) (chars : List Char) :
    (after policy chars).Behind chars := by
  induction chars using List.reverseRecOn with
  | nil => exact behind_start
  | append_singleton chars c ih =>
      rw [after_append_singleton]
      exact ih.read policy c

theorem runs_read_of_comment {c : Char} (hc : Command.ofChar? c = none) (policy : RunPolicy)
    (s : Scan) : (s.read policy c).runs = s.runs := by
  simp only [Scan.read, hc]

theorem runs_read_of_command {c : Char} {k : Command} (hc : Command.ofChar? c = some k)
    (policy : RunPolicy) (s : Scan) : (s.read policy c).runs = s.record policy c k := by
  simp only [Scan.read, hc]

/-! ## The scan merges -/

theorem record_filtered (s : Scan) (c : Char) (k : Command) :
    s.record .filtered c k = Run.absorb ⟨k, 1, s.position⟩ s.runs := by
  unfold record Run.absorb
  rcases s.runs with - | ⟨newest, older⟩
  · rfl
  · simp [continues]

/-- The filtered scan has merged what the adjacent scan has found. -/
theorem runs_after_filtered (chars : List Char) :
    (after .filtered chars).runs
      = (Run.merge (after .adjacent chars).runs.reverse).reverse := by
  induction chars using List.reverseRecOn with
  | nil => rfl
  | append_singleton chars c ih =>
      have hadjacent := behind_after .adjacent chars
      have hfiltered := behind_after .filtered chars
      rw [after_append_singleton, after_append_singleton]
      rcases hc : Command.ofChar? c with - | k
      · rw [runs_read_of_comment hc, runs_read_of_comment hc, ih]
      · rw [runs_read_of_command hc, runs_read_of_command hc, record_filtered,
          hadjacent.record_adjacent hc, hfiltered.position, ih]
        by_cases hsame : chars.getLast? = some c
        · -- the newest block grows, and with it the run that it was merged into
          obtain ⟨r, older, hruns, hr⟩ :=
            hadjacent.tracks.newest c k (hadjacent.previous.trans hsame) hc
          rw [if_pos hsame, hruns, grow, List.reverse_cons, List.reverse_cons,
            Run.reverse_merge_append_singleton, Run.reverse_merge_append_singleton]
          exact Run.absorb_absorb hr.symm _
        · rw [if_neg hsame, List.reverse_cons, Run.reverse_merge_append_singleton]

/-! ## Where a run begins -/

/-- What a command does to the runs: the newest one grows, or a new one opens here. -/
theorem record_cases (policy : RunPolicy) (s : Scan) (c : Char) (k : Command) :
    (∃ r older, s.runs = r :: older ∧
      s.record policy c k = { r with count := r.count + 1 } :: older) ∨
    s.record policy c k = ⟨k, 1, s.position⟩ :: s.runs := by
  unfold record
  rcases s.runs with - | ⟨r, older⟩
  · exact .inr rfl
  · by_cases hcont : s.continues policy c k r = true
    · exact .inl ⟨r, older, rfl, if_pos hcont⟩
    · exact .inr (if_neg hcont)

end Scan

/-- The run begins in these characters, right behind those that stand for the given commands. -/
def Run.BeginsBehind (r : Run) (commands : List Command) (chars : List Char) : Prop :=
  ∃ before rest, chars = before ++ r.command.symbol :: rest ∧
    before.filterMap Command.ofChar? = commands ∧ r.position = .behind before

theorem Run.BeginsBehind.append {r : Run} {commands : List Command} {chars : List Char}
    (h : r.BeginsBehind commands chars) (more : List Char) :
    r.BeginsBehind commands (chars ++ more) := by
  obtain ⟨before, rest, hchars, hbefore, hposition⟩ := h
  refine ⟨before, rest ++ more, ?_, hbefore, hposition⟩
  rw [hchars, List.append_assoc, List.cons_append]

namespace Scan

/-- Every run begins behind the commands of the older runs. -/
def RunsBegin (s : Scan) (chars : List Char) : Prop :=
  ∀ (newer : List Run) (r : Run) (older : List Run), s.runs = newer ++ r :: older →
    r.BeginsBehind (older.reverse.flatMap Run.commands) chars

theorem RunsBegin.read {s : Scan} {chars : List Char} (h : s.RunsBegin chars)
    (hbehind : s.Behind chars) (policy : RunPolicy) (c : Char) :
    (s.read policy c).RunsBegin (chars ++ [c]) := by
  intro newer r older hruns
  rcases hc : Command.ofChar? c with - | k
  · rw [runs_read_of_comment hc] at hruns
    exact (h newer r older hruns).append [c]
  · rw [runs_read_of_command hc] at hruns
    rcases s.record_cases policy c k with ⟨newest, others, hs, hrecord⟩ | hrecord
    · rw [hrecord] at hruns
      rcases List.cons_eq_append_iff.1 hruns with ⟨-, hsplit⟩ | ⟨newer, -, hsplit⟩
      · -- a run that grows begins where it began
        obtain ⟨rfl, rfl⟩ := List.cons.inj hsplit
        exact (h [] newest older hs).append [c]
      · rw [hsplit] at hs
        exact (h (newest :: newer) r older hs).append [c]
    · rw [hrecord] at hruns
      rcases List.cons_eq_append_iff.1 hruns with ⟨-, hsplit⟩ | ⟨newer, -, hsplit⟩
      · -- a new run begins behind all that has been read
        obtain ⟨rfl, rfl⟩ := List.cons.inj hsplit
        refine ⟨chars, [], ?_, hbehind.tracks.commands.symm, hbehind.position⟩
        rw [Command.ofChar?_eq_some_iff.1 hc]
      · exact (h newer r older hsplit).append [c]

theorem runsBegin_after (policy : RunPolicy) (chars : List Char) :
    (after policy chars).RunsBegin chars := by
  induction chars using List.reverseRecOn with
  | nil =>
      intro newer r older hruns
      simp [after, start] at hruns
  | append_singleton chars c ih =>
      rw [after_append_singleton]
      exact ih.read (behind_after policy chars) policy c

end Scan

/-! ## Whole sources -/

/-- The characters of a text that stand for commands. -/
def Command.characters (chars : List Char) : List Char :=
  chars.filter fun c => (Command.ofSymbol? c).isSome

theorem Command.map_symbol_filterMap (chars : List Char) :
    (chars.filterMap Command.ofChar?).map Command.symbol = Command.characters chars := by
  rw [Command.characters, Command.ofSymbol?_eq_ofChar?]
  induction chars with
  | nil => rfl
  | cons c chars ih =>
      rcases hc : Command.ofChar? c with - | k
      · rw [List.filterMap_cons_none hc, List.filter_cons_of_neg (by simp [hc]), ih]
      · rw [List.filterMap_cons_some hc, List.filter_cons_of_pos (by simp [hc]), List.map_cons, ih,
          Command.ofChar?_eq_some_iff.1 hc]

namespace Run

/-- The characters that a run stands for. -/
def characters (r : Run) : List Char := List.replicate r.count r.command.symbol

theorem map_symbol_flatMap_commands (runs : List Run) :
    (runs.flatMap commands).map Command.symbol = runs.flatMap characters := by
  rw [List.map_flatMap]
  congr 1
  funext r
  exact List.map_replicate

/-- Under the filtered policy the runs of a source are its run-length encoding: written out they are
    the command characters of the source, none is empty, neighbours differ in their command, and
    each has the place of its first character, the one behind those of the runs before it. They are
    what merging makes of the runs under the adjacent policy. -/
theorem ofSource_filtered_run_lengths (source : String) :
    (ofSource .filtered source).flatMap characters = Command.characters source.toList ∧
    (∀ r ∈ ofSource .filtered source, 1 ≤ r.count) ∧
    (ofSource .filtered source).IsChain (fun r next => r.command ≠ next.command) ∧
    (∀ front r back, ofSource .filtered source = front ++ r :: back →
      ∃ before rest, source.toList = before ++ r.command.symbol :: rest ∧
        Command.characters before = front.flatMap characters ∧ r.position = .behind before) ∧
    ofSource .filtered source = merge (ofSource .adjacent source) := by
  have hmerge : ofSource .filtered source = merge (ofSource .adjacent source) := by
    have hruns := Scan.runs_after_filtered source.toList
    exact List.reverse_eq_iff.2 hruns
  refine ⟨?_, fun r hr => count_pos_of_mem_ofSource hr, ?_, ?_, hmerge⟩
  · rw [← map_symbol_flatMap_commands, flatMap_commands_ofSource, Command.ofSource,
      Command.ofSymbol?_eq_ofChar?, Command.map_symbol_filterMap]
  · rw [hmerge]
    exact isChain_merge _
  · intro front r back hsplit
    have hruns : (Scan.after .filtered source.toList).runs
        = back.reverse ++ r :: front.reverse := by
      have hreverse := List.reverse_eq_iff.1 hsplit
      rw [List.reverse_append, List.reverse_cons, List.append_assoc, List.singleton_append]
        at hreverse
      exact hreverse
    obtain ⟨before, rest, hchars, hbefore, hposition⟩ :=
      Scan.runsBegin_after .filtered source.toList _ _ _ hruns
    refine ⟨before, rest, hchars, ?_, hposition⟩
    rw [← Command.map_symbol_filterMap, hbefore, List.reverse_reverse, map_symbol_flatMap_commands]

end Run

end Brainfuck
