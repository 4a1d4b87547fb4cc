import Brainfuck.Proofs.Machine.Safety

set_option autoImplicit false

/-! # Checked and unchecked runs

Checking moves changes nothing about a run but where it ends. With and without the check, a program
goes through the same states up to the first move behind which the pointer is at no cell
(`Machine.LeavesAt`). There the checked run ends, while the unchecked one goes on, and may come
back. If there is no such move, the two runs are the same. -/

namespace Brainfuck

/-- The program with its moves checked. -/
def Program.checked (p : Program) : Program := { p with boundsCheck := true }

/-- The program with its moves unchecked. -/
def Program.unchecked (p : Program) : Program := { p with boundsCheck := false }

namespace Machine

variable {p : Program} {limit : Option Nat} {start m m' : Machine} {k : Nat} {op : Op}

/-! ## One step -/

/-- The next step of the unchecked program is a move to `m'`, where the pointer is at no cell. -/
structure Leaves (p : Program) (limit : Option Nat) (m m' : Machine) : Prop where
  move : ∃ op, m.Due p limit op ∧ op.isMove = true
  step : m.step p.unchecked limit = .next m'
  out : ¬ m'.tape.InRange

theorem step_of_end (p : Program) (h : ∀ op, ¬ m.Due p limit op) :
    m.step p.checked limit = m.step p.unchecked limit := by
  unfold step
  cases hop : p.ops[m.ip]? with
  | none => simp only [Program.checked, Program.unchecked, hop]
  | some op =>
      cases hlimit : m.exceeded? limit with
      | none => exact absurd ⟨hop, hlimit⟩ (h op)
      | some n => simp only [Program.checked, Program.unchecked, hop]

/-- Only moves are executed differently. -/
theorem execute_of_isMove_eq_false (p : Program) (m : Machine) (h : op.isMove = false) :
    m.execute p.checked op = m.execute p.unchecked op := by
  cases op <;> first | rfl | contradiction

theorem step_checked_of_stays (h : ∀ m', ¬ m.Leaves p limit m') :
    m.step p.checked limit = m.step p.unchecked limit := by
  by_cases hdue : ∃ op, m.Due p limit op
  · obtain ⟨op, hdue⟩ := hdue
    have hchecked : m.Due p.checked limit op := hdue
    have hunchecked : m.Due p.unchecked limit op := hdue
    cases hmove : op.isMove with
    | false =>
        rw [hchecked.step_eq, hunchecked.step_eq]
        exact execute_of_isMove_eq_false p _ hmove
    | true =>
        have hstep : m.step p.unchecked limit
            = { m with steps := m.steps + 1, tape := m.tape.shift op.displacement }.advance := by
          rw [hunchecked.step_eq, execute_move hmove, if_neg fun hout => nomatch hout.1]
        have hin : (m.tape.shift op.displacement).InRange :=
          Classical.not_not.1 fun hout => h _ ⟨⟨op, hdue, hmove⟩, hstep, hout⟩
        rw [hstep, hchecked.step_eq, execute_move hmove, if_neg fun hout => hout.2 hin]
  · exact step_of_end p fun op hop => hdue ⟨op, hop⟩

theorem Leaves.step_checked (h : m.Leaves p limit m') :
    m.step p.checked limit
      = .done (.error (.pointerOutOfBounds m'.tape.pointer m'.tape.cells.size m.ip))
          { m' with ip := m.ip } := by
  obtain ⟨⟨op, hdue, hmove⟩, hstep, hout⟩ := h
  have hchecked : m.Due p.checked limit op := hdue
  have hunchecked : m.Due p.unchecked limit op := hdue
  rw [hunchecked.step_eq, execute_move hmove, if_neg fun hout => nomatch hout.1] at hstep
  cases hstep
  rw [hchecked.step_eq, execute_move hmove, if_pos ⟨rfl, hout⟩]
  rfl

/-! ## Whole runs -/

/-- Behind `k` instructions of the unchecked run, a move leaves the memory. -/
def LeavesAt (p : Program) (limit : Option Nat) (start : Machine) (k : Nat) : Prop :=
  ∃ m m', after? p.unchecked limit k start = some m ∧ m.Leaves p limit m'

theorem after?_checked (h : ∀ j < k, ¬ LeavesAt p limit start j) :
    after? p.checked limit k start = after? p.unchecked limit k start := by
  induction k with
  | zero => rfl
  | succ k ih =>
      have hsame := ih fun j hj => h j (Nat.lt_succ_of_lt hj)
      ext m''
      rw [after?_succ_iff, after?_succ_iff, hsame]
      refine exists_congr fun m => and_congr_right fun hafter => ?_
      rw [step_checked_of_stays fun m' hleaves => h k (Nat.lt_succ_self k) ⟨m, m', hafter, hleaves⟩]

theorem runFor_checked {fuel : Nat} (h : ∀ j < fuel, ¬ LeavesAt p limit start j) :
    runFor p.checked limit fuel start = runFor p.unchecked limit fuel start := by
  ext ⟨o, m''⟩
  rw [runFor_eq_some_iff, runFor_eq_some_iff]
  refine exists_congr fun k => and_congr_right fun hk => ?_
  rw [after?_checked fun j hj => h j (Nat.lt_trans hj hk)]
  refine exists_congr fun m => and_congr_right fun hafter => ?_
  rw [step_checked_of_stays fun m' hleaves => h k hk ⟨m, m', hafter, hleaves⟩]

/-- The first move out of the memory ends the checked run. -/
theorem runFor_checked_of_leaves (hfirst : ∀ j < k, ¬ LeavesAt p limit start j)
    (hafter : after? p.unchecked limit k start = some m) (hleaves : m.Leaves p limit m') :
    runFor p.checked limit (k + 1) start
      = some (.error (.pointerOutOfBounds m'.tape.pointer m'.tape.cells.size m.ip),
          { m' with ip := m.ip }) := by
  rw [runFor_eq_some_iff]
  exact ⟨k, Nat.lt_succ_self k, m, (after?_checked hfirst).trans hafter, hleaves.step_checked⟩

/-- At every moment, what the checked run has written is the start of what the unchecked run has
    written. -/
theorem output_upTo_checked (p : Program) (limit : Option Nat) (k : Nat) (start : Machine) :
    (upTo p.checked limit k start).streams.output
      <+: (upTo p.unchecked limit k start).streams.output := by
  induction k generalizing start with
  | zero => exact List.prefix_refl _
  | succ k ih =>
      rw [upTo, upTo]
      by_cases hleaves : ∃ m', start.Leaves p limit m'
      · obtain ⟨m', hleaves⟩ := hleaves
        rw [hleaves.step_checked, hleaves.step]
        exact (continue_upTo p.unchecked limit k m').output
      · rw [step_checked_of_stays fun m' h => hleaves ⟨m', h⟩]
        cases start.step p.unchecked limit with
        | next m' => exact ih m'
        | done o m' => exact List.prefix_refl _

/-- A checked run that succeeds never left the memory. -/
theorem runFor_unchecked_of_ok {fuel : Nat}
    (h : runFor p.checked limit fuel start = some (.ok (), m)) :
    runFor p.unchecked limit fuel start = some (.ok (), m) := by
  induction fuel generalizing start with
  | zero => simp [runFor] at h
  | succ fuel ih =>
      rw [runFor] at h ⊢
      by_cases hleaves : ∃ m', start.Leaves p limit m'
      · obtain ⟨m', hleaves⟩ := hleaves
        simp [hleaves.step_checked] at h
      · rw [step_checked_of_stays fun m' h => hleaves ⟨m', h⟩] at h
        cases hstep : start.step p.unchecked limit with
        | next m' =>
            rw [hstep] at h
            exact ih h
        | done o m' =>
            rw [hstep] at h
            exact h

end Machine

/-! ## Results -/

namespace Program

variable {p : Program} {limit : Option Nat} {tape before : Tape} {streams : Streams}

/-- What a run that has ended has written, seen from any later moment. -/
theorem output_of_run {fuel : Nat} {r : RunResult} (hload : p.load = .ok tape)
    (h : p.run limit fuel before streams = some r) (more : Nat) :
    r.streams.output
      = (Machine.upTo p limit (fuel + more) { tape, streams }).streams.output := by
  obtain ⟨o, m, hends, rfl⟩ := (run_eq_some_iff hload).1 h
  rw [streams_conclude, Streams.output_flush,
    Machine.upTo_of_runFor (Machine.runFor_add hends more)]

theorem run_checked_of_leaves {k : Nat} {m m' : Machine} (hload : p.load = .ok tape)
    (hfirst : ∀ j < k, ¬ Machine.LeavesAt p limit { tape, streams } j)
    (hafter : Machine.after? p.unchecked limit k { tape, streams } = some m)
    (hleaves : m.Leaves p limit m') :
    ∃ r, p.checked.run limit (k + 1) before streams = some r ∧
      r.tape = m'.tape ∧ r.streams = m'.streams.flush.2 ∧
      (streams.flushFaults = [] → r.outcome
        = .error (.pointerOutOfBounds m'.tape.pointer p.memorySize.toNat m.ip)) := by
  have hafter' := Machine.after?_succ_iff.2 ⟨m, hafter, hleaves.step⟩
  have hcells : m'.tape.cells.size = p.memorySize.toNat :=
    (Machine.Sound.of_after? rfl rfl hafter').size.trans (size_cells_load hload)
  have hends := Machine.runFor_checked_of_leaves hfirst hafter hleaves
  rw [hcells] at hends
  have hload' : p.checked.load = .ok tape := hload
  refine ⟨_, (run_eq_some_iff hload').2 ⟨_, _, hends, rfl⟩, tape_conclude _ _,
    streams_conclude _ _, ?_⟩
  intro hfaults
  -- no instruction before the last flush brings in faults
  have hstreams := Machine.continue_upTo p.unchecked limit (k + 1) { tape, streams }
  rw [Machine.upTo_of_after? hafter'] at hstreams
  exact outcome_conclude (Streams.fst_flush (hstreams.flushFaults hfaults))

/-- Checked and unchecked runs of a program. Where the memory has no room, nothing happens in
    either. Otherwise they go through the same states up to the first move out of the memory, by
    which the checked run ends and reports this move; without such a move they are the same. So a
    checked run writes the start of what the unchecked run writes, and if it succeeds it is the
    unchecked run. -/
theorem bounds_check_cuts_short (p : Program) (limit : Option Nat) (before : Tape)
    (streams : Streams) :
    (∀ e, p.load = .error e → ∀ fuel,
      p.checked.run limit fuel before streams = p.unchecked.run limit fuel before streams) ∧
    ∀ tape, p.load = .ok tape →
      (∀ k, (∀ j < k, ¬ Machine.LeavesAt p limit { tape, streams } j) →
        Machine.after? p.checked limit k { tape, streams }
          = Machine.after? p.unchecked limit k { tape, streams }) ∧
      (∀ k m m', (∀ j < k, ¬ Machine.LeavesAt p limit { tape, streams } j) →
        Machine.after? p.unchecked limit k { tape, streams } = some m → m.Leaves p limit m' →
        ∃ r, p.checked.run limit (k + 1) before streams = some r ∧
          r.tape = m'.tape ∧ r.streams = m'.streams.flush.2 ∧
          (streams.flushFaults = [] → r.outcome
            = .error (.pointerOutOfBounds m'.tape.pointer p.memorySize.toNat m.ip))) ∧
      ((∀ k, ¬ Machine.LeavesAt p limit { tape, streams } k) → ∀ fuel,
        p.checked.run limit fuel before streams = p.unchecked.run limit fuel before streams) ∧
      (∀ k, (Machine.upTo p.checked limit k { tape, streams }).streams.output
        <+: (Machine.upTo p.unchecked limit k { tape, streams }).streams.output) ∧
      ∀ fuel r, p.checked.run limit fuel before streams = some r →
        (∀ fuel' r', p.unchecked.run limit fuel' before streams = some r' →
          r.streams.output <+: r'.streams.output) ∧
        (r.outcome = .ok () → p.unchecked.run limit fuel before streams = some r) := by
  constructor
  · intro e hload fuel
    have hchecked : p.checked.load = .error e := hload
    have hunchecked : p.unchecked.load = .error e := hload
    rw [run, run, hchecked, hunchecked]
  intro tape hload
  have hchecked : p.checked.load = .ok tape := hload
  have hunchecked : p.unchecked.load = .ok tape := hload
  refine ⟨fun k => Machine.after?_checked, fun k m m' => run_checked_of_leaves hload, ?_,
    fun k => Machine.output_upTo_checked p limit k _, ?_⟩
  · intro hnever fuel
    simp only [run, hchecked, hunchecked]
    rw [Machine.runFor_checked fun j _ => hnever j]
  · intro fuel r hrun
    constructor
    · intro fuel' r' hrun'
      rw [output_of_run hchecked hrun fuel', output_of_run hunchecked hrun' fuel,
        Nat.add_comm fuel' fuel]
      exact Machine.output_upTo_checked p limit _ _
    · intro hok
      obtain ⟨o, m, hends, rfl⟩ := (run_eq_some_iff hchecked).1 hrun
      obtain rfl := ok_of_outcome_conclude hok
      exact (run_eq_some_iff hunchecked).2
        ⟨_, m, Machine.runFor_unchecked_of_ok hends, rfl⟩

/-- A program that steps out of its memory to the left and comes back to write a byte. -/
theorem bounds_check_cuts_short_excursion :
    ∃ r, (⟨1, 0, true, #[.moveLeft 1, .moveRight 1, .write]⟩ : Program).checked.run none 1 .empty
        { input := [] } = some r ∧
      r.outcome = .error (.pointerOutOfBounds (-1) 1 0) := by
  have hload : (⟨1, 0, true, #[.moveLeft 1, .moveRight 1, .write]⟩ : Program).load
      = .ok { cells := #[0], pointer := 0 } := load_eq_ok_iff.2 ⟨by decide, by decide⟩
  have hleaves : Machine.Leaves ⟨1, 0, true, #[.moveLeft 1, .moveRight 1, .write]⟩ none
      ⟨{ cells := #[0], pointer := 0 }, { input := [] }, 0, 0⟩
      ⟨{ cells := #[0], pointer := -1 }, { input := [] }, 1, 1⟩ :=
    ⟨⟨.moveLeft 1, ⟨rfl, rfl⟩, rfl⟩, rfl, by decide⟩
  obtain ⟨r, hrun, -, -, houtcome⟩ := ((bounds_check_cuts_short
    ⟨1, 0, true, #[.moveLeft 1, .moveRight 1, .write]⟩ none .empty { input := [] }).2 _ hload).2.1 0
    _ _ (fun j hj => absurd hj (Nat.not_lt_zero j)) rfl hleaves
  exact ⟨r, hrun, houtcome rfl⟩

end Program

end Brainfuck
