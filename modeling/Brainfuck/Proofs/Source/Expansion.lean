import Brainfuck.Source.Run

set_option autoImplicit false

/-! # Runs written out

A run stands for its command, repeated. Whatever the policy, the runs of a source written out one
after the other are the commands of the source: comments decide how the commands are grouped, never
which commands there are. The scan keeps this true character by character (`Scan.Tracks.read`). -/

namespace Brainfuck

/-- The commands of a source, in order. -/
def Command.ofSource (source : String) : List Command :=
  source.toList.filterMap Command.ofSymbol?

/-- The commands that a run stands for. -/
def Run.commands (r : Run) : List Command :=
  List.replicate r.count r.command

theorem Run.commands_grow (r : Run) :
    ({ r with count := r.count + 1 } : Run).commands = r.commands ++ [r.command] := by
  simp only [Run.commands]
  rw [List.replicate_succ']

/-! ## The invariant of the scan -/

/-- What the scan has found agrees with the characters it has read. -/
structure Scan.Tracks (s : Scan) (chars : List Char) : Prop where
  /-- The runs so far stand for the commands read so far. -/
  commands : s.runs.reverse.flatMap Run.commands = chars.filterMap Command.ofChar?
  /-- No run is empty. -/
  counts : ∀ r ∈ s.runs, 0 < r.count
  /-- If the character just read is a command, the newest run is one of this command. -/
  newest : ∀ (c : Char) (k : Command), s.previous = some c → Command.ofChar? c = some k →
    ∃ r rest, s.runs = r :: rest ∧ r.command = k

namespace Scan

theorem tracks_start (position : Position) : Tracks (start position) [] where
  commands := rfl
  counts := by intro r hr; simp [start] at hr
  newest := by intro c k hc; simp [start] at hc

/-- A run that grows is one of the command that makes it grow. -/
theorem Tracks.command_eq {s : Scan} {chars : List Char} (h : Tracks s chars)
    {policy : RunPolicy} {c : Char} {k : Command} (hc : Command.ofChar? c = some k)
    {r : Run} {rest : List Run} (hruns : s.runs = r :: rest)
    (hcont : s.continues policy c k r = true) : r.command = k := by
  cases policy with
  | adjacent =>
      have hprevious : s.previous = some c := by simpa [continues] using hcont
      obtain ⟨r', rest', hruns', hr'⟩ := h.newest c k hprevious hc
      rw [hruns] at hruns'
      obtain ⟨rfl, rfl⟩ := List.cons.inj hruns'
      exact hr'
  | filtered => simpa [continues] using hcont

/-- What a command does to the runs: the newest one is of this command, none is empty, and one
    command more is written out. -/
theorem Tracks.record {s : Scan} {chars : List Char} (h : Tracks s chars)
    (policy : RunPolicy) {c : Char} {k : Command} (hc : Command.ofChar? c = some k) :
    ∃ r rest, s.record policy c k = r :: rest ∧ r.command = k ∧
      (∀ r' ∈ r :: rest, 0 < r'.count) ∧
      (r :: rest).reverse.flatMap Run.commands
        = s.runs.reverse.flatMap Run.commands ++ [k] := by
  cases hruns : s.runs with
  | nil =>
      refine ⟨⟨k, 1, s.position⟩, [], by simp [Scan.record, hruns], rfl, ?_, ?_⟩
      · intro r' hr'
        rw [List.mem_singleton.1 hr']
        exact Nat.one_pos
      · simp [Run.commands]
  | cons r rest =>
      have hcounts : ∀ r' ∈ r :: rest, 0 < r'.count := hruns ▸ h.counts
      by_cases hcont : s.continues policy c k r = true
      · have hcommand := h.command_eq hc hruns hcont
        refine ⟨{ r with count := r.count + 1 }, rest, ?_, hcommand, ?_, ?_⟩
        · simp [Scan.record, hruns, hcont]
        · intro r' hr'
          rcases List.mem_cons.1 hr' with rfl | hr'
          · exact Nat.succ_pos _
          · exact hcounts r' (List.mem_cons_of_mem _ hr')
        · rw [List.reverse_cons, List.flatMap_append, List.flatMap_singleton, Run.commands_grow,
            List.reverse_cons, List.flatMap_append, List.flatMap_singleton, List.append_assoc,
            hcommand]
      · refine ⟨⟨k, 1, s.position⟩, r :: rest, by simp [Scan.record, hruns, hcont], rfl, ?_, ?_⟩
        · intro r' hr'
          rcases List.mem_cons.1 hr' with rfl | hr'
          · exact Nat.one_pos
          · exact hcounts r' hr'
        · rw [List.reverse_cons, List.flatMap_append, List.flatMap_singleton]
          rfl

/-- One character keeps the scan in step with what it has read. -/
theorem Tracks.read {s : Scan} {chars : List Char} (h : Tracks s chars) (policy : RunPolicy)
    (c : Char) : Tracks (s.read policy c) (chars ++ [c]) := by
  cases hc : Command.ofChar? c with
  | none =>
      refine ⟨?_, ?_, ?_⟩
      · simp only [Scan.read, hc, List.filterMap_append, h.commands]
        simp [hc]
      · simpa only [Scan.read, hc] using h.counts
      · intro c' k hprevious hk
        obtain rfl : c = c' := Option.some.inj hprevious
        rw [hc] at hk
        contradiction
  | some k =>
      obtain ⟨r, rest, hrecord, hcommand, hcounts, hcommands⟩ := h.record policy hc
      have hruns : (s.read policy c).runs = r :: rest := by simp only [Scan.read, hc, hrecord]
      refine ⟨?_, ?_, ?_⟩
      · rw [hruns, hcommands, h.commands, List.filterMap_append]
        simp [hc]
      · rw [hruns]
        exact hcounts
      · intro c' k' hprevious hk'
        obtain rfl : c = c' := Option.some.inj hprevious
        obtain rfl : k = k' := Option.some.inj (hc.symm.trans hk')
        exact ⟨r, rest, hruns, hcommand⟩

/-- The same for any number of characters. -/
theorem Tracks.foldl_read (policy : RunPolicy) (more : List Char) :
    ∀ {s : Scan} {chars : List Char}, Tracks s chars →
      Tracks (more.foldl (Scan.read policy) s) (chars ++ more) := by
  induction more with
  | nil => intro s chars h; simpa using h
  | cons c more ih =>
      intro s chars h
      simpa using ih (h.read policy c)

end Scan

/-! ## Whole sources -/

theorem Scanner.tracks_scan (source : String) (policy : RunPolicy) :
    Scan.Tracks ((Scanner.ofString source).scan policy) source.toList := by
  have h := Scan.Tracks.foldl_read policy source.toList (Scan.tracks_start .start)
  rw [List.nil_append] at h
  exact h

namespace Run

/-- Under either policy, the runs of a source stand for its commands. -/
theorem flatMap_commands_ofSource (policy : RunPolicy) (source : String) :
    (ofSource policy source).flatMap commands = Command.ofSource source := by
  rw [Command.ofSource, Command.ofSymbol?_eq_ofChar?]
  exact (Scanner.tracks_scan source policy).commands

theorem count_pos_of_mem_ofSource {policy : RunPolicy} {source : String} {r : Run}
    (h : r ∈ ofSource policy source) : 0 < r.count :=
  (Scanner.tracks_scan source policy).counts r (List.mem_reverse.1 h)

end Run

end Brainfuck
