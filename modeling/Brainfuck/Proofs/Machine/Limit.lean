import Brainfuck.Machine.Host
import Brainfuck.Proofs.Machine.Discipline
import Mathlib.Data.ENat.Lattice
import Mathlib.Order.CompletePartialOrder

set_option autoImplicit false

/-! # Runs under a limit

A limit is looked at before each instruction and at no other time. So a limited run is the unlimited
one, cut where one instruction more would be due than the limit allows: a run that executes no more
instructions (`Machine.runLength`) is not changed at all, and any other ends in the state that the
unlimited run has reached by then. Since a host counts each run from zero, what it has run before
does not matter. -/

namespace Brainfuck

namespace Machine

variable {p : Program} {limit : Option Nat} {start m : Machine} {op : Op} {k n : Nat}

/-! ## Counting instructions -/

/-- How many instructions are executed from here on if there is no limit. The one that ends the
    program counts, and if the program does not end there are infinitely many. -/
noncomputable def runLength (p : Program) (start : Machine) : ℕ∞ :=
  ⨆ j, ((started p none j start).length : ℕ∞)

theorem lt_length_started_iff {j : Nat} :
    k < (started p limit j start).length ↔
      k < j ∧ ∃ m op, after? p limit k start = some m ∧ m.Due p limit op := by
  induction j generalizing start k with
  | zero => simp [started]
  | succ j ih =>
      rcases hdue : start.due? p limit with - | op
      · obtain ⟨o, hstep⟩ := step_of_due?_eq_none hdue
        rw [started_of_due?_eq_none hdue]
        constructor
        · intro h
          contradiction
        · rintro ⟨-, m, op, hafter, hop⟩
          rcases k with - | k
          · cases hafter
            rw [due?_eq_some_iff.2 hop] at hdue
            contradiction
          · rw [after?, hstep] at hafter
            contradiction
      · have hop := due?_eq_some_iff.1 hdue
        have hfirst : ∃ m op, after? p limit 0 start = some m ∧ m.Due p limit op :=
          ⟨start, op, rfl, hop⟩
        rcases hstep : start.step p limit with m₁ | ⟨o, m₁⟩
        · rw [started_of_next hop hstep, List.length_cons]
          rcases k with - | k
          · exact iff_of_true (Nat.succ_pos _) ⟨Nat.succ_pos j, hfirst⟩
          · rw [Nat.add_lt_add_iff_right, Nat.add_lt_add_iff_right, after?_of_next hstep]
            exact ih
        · rw [started_of_done hop hstep]
          rcases k with - | k
          · exact iff_of_true Nat.one_pos ⟨Nat.succ_pos j, hfirst⟩
          · simp [after?, hstep]

/-- More than `k` instructions are executed if one is due after `k` of them. -/
theorem lt_runLength_iff :
    (k : ℕ∞) < runLength p start ↔ ∃ m op, after? p none k start = some m ∧ m.Due p none op := by
  rw [runLength, lt_iSup_iff]
  constructor
  · rintro ⟨j, hj⟩
    exact (lt_length_started_iff.1 (Nat.cast_lt.1 hj)).2
  · intro h
    exact ⟨k + 1, Nat.cast_lt.2 (lt_length_started_iff.2 ⟨Nat.lt_succ_self k, h⟩)⟩

/-- A run that executes so many instructions has ended by the next step. -/
theorem exists_runFor_of_runLength_le (h : runLength p start ≤ n) {fuel : Nat} (hfuel : n < fuel) :
    ∃ o m, runFor p none fuel start = some (o, m) := by
  have hends : (∃ m, after? p none fuel start = some m)
      ∨ ∃ o m, runFor p none fuel start = some (o, m) := after?_or_runFor fuel start
  refine hends.resolve_left ?_
  rintro ⟨m, hafter⟩
  obtain ⟨fuel, rfl⟩ := Nat.exists_eq_add_one.2 (Nat.zero_lt_of_lt hfuel)
  obtain ⟨m₁, hafter₁, hstep⟩ := after?_succ_iff.1 hafter
  obtain ⟨op, hgoes⟩ := exists_goesOn hstep
  have hlt : (fuel : ℕ∞) < runLength p start := lt_runLength_iff.2 ⟨m₁, op, hafter₁, hgoes.due⟩
  have hle : (n : ℕ∞) ≤ fuel := Nat.cast_le.2 (Nat.le_of_lt_succ hfuel)
  exact not_le.2 hlt (h.trans hle)

/-- Infinitely many instructions are executed exactly if the run does not end. -/
theorem runLength_eq_top_iff : runLength p start = ⊤ ↔ ∀ fuel, runFor p none fuel start = none := by
  constructor
  · intro htop fuel
    obtain ⟨m, op, hafter, -⟩ := lt_runLength_iff.1 (htop ▸ ENat.natCast_lt_top fuel)
    exact runFor_after? hafter 0
  · intro hnone
    by_contra htop
    obtain ⟨n, hn⟩ := ENat.ne_top_iff_exists.1 htop
    obtain ⟨o, m, hrun⟩ := exists_runFor_of_runLength_le hn.ge (Nat.lt_succ_self n)
    rw [hnone] at hrun
    contradiction

/-! ## One step under a limit -/

theorem step_of_steps_lt (h : m.steps < n) : m.step p (some n) = m.step p none := by
  have hfree : m.exceeded? (some n) = m.exceeded? none := by
    simp only [exceeded?, Option.filter_some, Option.filter_none]
    exact if_neg (by simpa using h)
  rw [step, step, hfree]

theorem step_of_not_due (h : ∀ op, ¬ m.Due p none op) : m.step p (some n) = m.step p none := by
  have hend : p.ops[m.ip]? = none := by
    rcases hop : p.ops[m.ip]? with - | op
    · rfl
    · exact absurd ⟨hop, rfl⟩ (h op)
  simp only [step, hend]

theorem Due.step_of_steps_eq (h : m.Due p none op) (hsteps : m.steps = n) :
    m.step p (some n) = m.fail (.stepLimit n) := by
  have hused : m.exceeded? (some n) = some n := by
    simp [exceeded?, hsteps]
  simp only [step, h.1, hused]

/-! ## Runs under a limit -/

/-- As long as no instruction is due when the limit is used up, the limit changes nothing. -/
theorem runFor_limit_of_not_due (fuel : Nat) :
    ∀ {k : Nat} {start : Machine}, start.steps + k = n →
      (∀ m op, after? p none k start = some m → ¬ m.Due p none op) →
      runFor p (some n) fuel start = runFor p none fuel start := by
  induction fuel with
  | zero =>
      intro k start hsteps hnone
      rfl
  | succ fuel ih =>
      intro k start hsteps hnone
      rw [runFor, runFor]
      rcases k with - | k
      · have hdue : ∀ op, ¬ start.Due p none op := fun op => hnone start op rfl
        rw [step_of_not_due hdue]
        rcases hstep : start.step p none with m₁ | ⟨o, m₁⟩
        · obtain ⟨op, hgoes⟩ := exists_goesOn hstep
          exact absurd hgoes.due (hdue op)
        · rfl
      · rw [step_of_steps_lt (by omega)]
        rcases hstep : start.step p none with m₁ | ⟨o, m₁⟩
        · obtain ⟨op, hgoes⟩ := exists_goesOn hstep
          rw [after?_of_next hstep] at hnone
          exact ih (by rw [hgoes.steps]; omega) hnone
        · rfl

/-- An instruction that is due when the limit is used up is not executed. -/
theorem runFor_limit_of_due (hop : m.Due p none op) (k : Nat) :
    ∀ {fuel : Nat} {start : Machine}, start.steps + k = n → after? p none k start = some m →
      k < fuel → runFor p (some n) fuel start = some (.error (.stepLimit n), m) := by
  induction k with
  | zero =>
      intro fuel start hsteps hafter hfuel
      cases hafter
      obtain ⟨fuel, rfl⟩ := Nat.exists_eq_add_one.2 hfuel
      rw [runFor, hop.step_of_steps_eq hsteps]
      rfl
  | succ k ih =>
      intro fuel start hsteps hafter hfuel
      obtain ⟨fuel, rfl⟩ := Nat.exists_eq_add_one.2 (Nat.zero_lt_of_lt hfuel)
      rcases hstep : start.step p none with m₁ | ⟨o, m₁⟩
      · obtain ⟨op₁, hgoes⟩ := exists_goesOn hstep
        rw [after?_of_next hstep] at hafter
        rw [runFor, step_of_steps_lt (by omega), hstep]
        exact ih (by rw [hgoes.steps]; omega) hafter (Nat.lt_of_succ_lt_succ hfuel)
      · rw [after?, hstep] at hafter
        contradiction

/-- A limit that a run does not use up changes nothing about it. -/
theorem runFor_of_runLength_le (hsteps : start.steps = 0)
    (h : ∀ n, limit = some n → runLength p start ≤ n) (fuel : Nat) :
    runFor p limit fuel start = runFor p none fuel start := by
  rcases limit with - | n
  · rfl
  · refine runFor_limit_of_not_due fuel (k := n) (by omega) ?_
    intro m op hafter hop
    exact not_lt.2 (h n rfl) (lt_runLength_iff.2 ⟨m, op, hafter, hop⟩)

/-- A run that needs more than its limit ends where the unlimited one is after so many
    instructions. -/
theorem runFor_of_lt_runLength (hsteps : start.steps = 0) (h : n < runLength p start) :
    ∃ m, after? p none n start = some m ∧
      ∀ fuel > n, runFor p (some n) fuel start = some (.error (.stepLimit n), m) := by
  obtain ⟨m, op, hafter, hop⟩ := lt_runLength_iff.1 h
  refine ⟨m, hafter, ?_⟩
  intro fuel hfuel
  exact runFor_limit_of_due hop n (by omega) hafter hfuel

/-- A limited run ends. -/
theorem exists_runFor_of_limit (hsteps : start.steps = 0) {fuel : Nat} (hfuel : n < fuel) :
    ∃ o m, runFor p (some n) fuel start = some (o, m) := by
  rcases le_or_gt (runLength p start) n with hle | hlt
  · rw [runFor_of_runLength_le hsteps (by rintro _ ⟨⟩; exact hle)]
    exact exists_runFor_of_runLength_le hle hfuel
  · obtain ⟨m, -, hends⟩ := runFor_of_lt_runLength hsteps hlt
    exact ⟨_, m, hends fuel hfuel⟩

/-- A limited run that ends for another reason has not used up its limit. -/
theorem runLength_le_of_runFor (hsteps : start.steps = 0) {fuel : Nat} {o : Except RunError Unit}
    (hends : runFor p (some n) fuel start = some (o, m)) (hother : o ≠ .error (.stepLimit n)) :
    runLength p start ≤ n := by
  by_contra hlt
  obtain ⟨m', -, hcut⟩ := runFor_of_lt_runLength hsteps (not_le.1 hlt)
  have hresult := runFor_unique hends (hcut (n + 1) (Nat.lt_succ_self n))
  exact hother (Prod.mk.inj hresult).1

end Machine

/-! ## The last flush -/

/-- What a run leaves behind whose instructions have ended with this outcome on this machine. One
    flush call has been made, with the fault that its schedule has for it, and nothing else has
    changed. If the flush fails, its error is the outcome. -/
structure RunResult.Concludes (r : RunResult) (o : Except RunError Unit) (m : Machine) : Prop where
  tape : r.tape = m.tape
  input : r.streams.input = m.streams.input
  trace : r.streams.trace = m.streams.trace ++ [.flush (m.streams.flushFaults.faultAt 0)]
  output : r.streams.output = m.streams.output
  consumed : r.streams.consumed = m.streams.consumed
  ends : Streams.flushOutcome (m.streams.flushFaults.faultAt 0) = .ok () → r.outcome = o
  fails : ∀ e, Streams.flushOutcome (m.streams.flushFaults.faultAt 0) = .error e →
    r.outcome = .error (.stream e)

theorem Program.concludes_conclude (o : Except RunError Unit) (m : Machine) :
    (conclude o m).Concludes o m := by
  have hflush := m.streams.flush_eq
  rw [Schedule.next_fst] at hflush
  have hstreams := streams_conclude o m
  rw [hflush] at hstreams
  refine ⟨tape_conclude o m, ?_, ?_, ?_, ?_, ?_, ?_⟩
  · rw [hstreams]
    rfl
  · rw [hstreams, Streams.trace_record]
    rfl
  · rw [streams_conclude, Streams.output_flush]
  · rw [hstreams]
    rfl
  · intro hok
    exact outcome_conclude (by rw [hflush, hok])
  · intro e hfails
    exact outcome_conclude_of_flush_fails (by rw [hflush, hfails])

/-! ## Hosts -/

namespace Host

variable {p : Program} {tape : Tape} {h : Host} {n : Nat}

/-- What a run on any host leaves behind is decided by the limit of the host alone. -/
theorem fst_run (hload : p.load = .ok tape) (h : Host) (fuel : Nat) (streams : Streams) :
    (h.run p fuel streams).map Prod.fst
      = (Machine.runFor p h.limit fuel { tape, streams }).map fun (outcome, m) =>
          Program.conclude outcome m := by
  rw [run_of_load hload, Option.map_map]
  rfl

/-- A limit cuts a run and does nothing else, whatever the host has run before. Let `N` be the
    number of instructions that the run on a new host without a limit executes. If it is at most
    `n`, the run under the limit `n` is the same. Otherwise its instructions end with that error,
    where the other run is after `n` instructions, and the last flush follows. So the limited run
    ends, and if it does so for another reason, a higher limit or none makes no difference. -/
theorem run_cut_at_limit (hload : p.load = .ok tape) (streams : Streams)
    (hlimit : h.limit = some n) :
    let N := Machine.runLength p { tape, streams }
    (N = ⊤ ↔ ∀ fuel, ({} : Host).run p fuel streams = none) ∧
    (N ≤ n → ∀ fuel, (h.run p fuel streams).map Prod.fst
      = (({} : Host).run p fuel streams).map Prod.fst) ∧
    (n < N → ∃ m, Machine.after? p none n { tape, streams } = some m ∧
      ∀ fuel > n,
        Machine.runFor p (some n) fuel { tape, streams } = some (.error (.stepLimit n), m) ∧
        ∃ r h', h.run p fuel streams = some (r, h') ∧ r.Concludes (.error (.stepLimit n)) m) ∧
    (∀ fuel > n, ∃ r h', h.run p fuel streams = some (r, h') ∧ h'.limit = some n) ∧
    ∀ fuel o m, Machine.runFor p (some n) fuel { tape, streams } = some (o, m) →
      o ≠ .error (.stepLimit n) →
      ∀ h' : Host, (∀ n', h'.limit = some n' → n ≤ n') →
        (h'.run p fuel streams).map Prod.fst = (h.run p fuel streams).map Prod.fst := by
  intro N
  have hsame : N ≤ n → ∀ h' : Host, (∀ n', h'.limit = some n' → n ≤ n') → ∀ fuel,
      (h'.run p fuel streams).map Prod.fst = (({} : Host).run p fuel streams).map Prod.fst := by
    intro hle h' hhigher fuel
    rw [fst_run hload, fst_run hload, Machine.runFor_of_runLength_le rfl]
    intro n' hn'
    exact hle.trans (Nat.cast_le.2 (hhigher n' hn'))
  have hself : ∀ n', h.limit = some n' → n ≤ n' := by
    intro n' hn'
    rw [hlimit, Option.some.injEq] at hn'
    exact hn'.le
  refine ⟨?_, fun hle => hsame hle h hself, ?_, ?_, ?_⟩
  · simp only [run_of_load hload, Option.map_eq_none_iff]
    exact Machine.runLength_eq_top_iff
  · intro hlt
    obtain ⟨m, hafter, hends⟩ := Machine.runFor_of_lt_runLength rfl hlt
    refine ⟨m, hafter, ?_⟩
    intro fuel hfuel
    have hrun := run_of_load hload h fuel streams
    rw [hlimit, hends fuel hfuel] at hrun
    exact ⟨hends fuel hfuel, _, _, hrun, Program.concludes_conclude _ _⟩
  · intro fuel hfuel
    obtain ⟨o, m, hends⟩ : ∃ o m, Machine.runFor p (some n) fuel { tape, streams } = some (o, m) :=
      Machine.exists_runFor_of_limit rfl hfuel
    have hrun := run_of_load hload h fuel streams
    rw [hlimit, hends] at hrun
    exact ⟨_, _, hrun, rfl⟩
  · intro fuel o m hends hother h' hhigher
    have hle := Machine.runLength_le_of_runFor rfl hends hother
    rw [hsame hle h' hhigher, hsame hle h hself]

/-- Three instructions on a host that has run others before: a limit of three is enough for them,
    and a limit of two ends the run before the last of them, when the byte has been written, and a
    flush follows. If this flush fails, its error is reported and not that of the limit. -/
theorem run_cut_at_limit_between :
    let p : Program := ⟨1, 0, true, #[.addCell 7, .write, .halt]⟩
    let used (n : Nat) : Host := { limit := some n, tape := ⟨#[1, 2], 5⟩, steps := 9 }
    let full : Streams := { input := [9], flushFaults := [(0, .error "full")] }
    p.load = .ok ⟨#[0], 0⟩ ∧
    ((used 3).run p 3 { input := [9] }).map (·.1.outcome) = some (.ok ()) ∧
    (∃ r h, (used 2).run p 3 { input := [9] } = some (r, h) ∧
      r.outcome = .error (.stepLimit 2) ∧ r.tape = ⟨#[7], 0⟩ ∧ r.streams.input = [9] ∧
      r.streams.trace = [.write none 7, .flush none]) ∧
    ∃ r h, (used 2).run p 3 full = some (r, h) ∧ r.outcome = .error (.stream (.failed "full")) ∧
      r.tape = ⟨#[7], 0⟩ ∧ r.streams.trace = [.write none 7, .flush (some (.error "full"))] := by
  intro p used full
  have hload : p.load = .ok ⟨#[0], 0⟩ := Program.load_eq_ok_iff.2 ⟨by decide, by decide⟩
  have hless :
      Machine.runLength p { tape := ⟨#[0], 0⟩, streams := { input := [9] } } ≤ (3 : Nat) := by
    refine not_lt.1 fun hlt => ?_
    obtain ⟨m, op, hafter, -⟩ := Machine.lt_runLength_iff.1 hlt
    cases hafter
  refine ⟨hload, ?_, ?_, ?_⟩
  · have hwhole := (run_cut_at_limit hload { input := [9] } (h := used 3) rfl).2.1 hless 3
    exact congrArg (Option.map (·.outcome)) hwhole
  · have hlt : (2 : Nat) < Machine.runLength p { tape := ⟨#[0], 0⟩, streams := { input := [9] } } :=
      Machine.lt_runLength_iff.2 ⟨_, .halt, rfl, rfl, rfl⟩
    obtain ⟨m, hafter, hcut⟩ :=
      (run_cut_at_limit hload { input := [9] } (h := used 2) rfl).2.2.1 hlt
    cases hafter
    obtain ⟨-, r, h, hrun, hr⟩ := hcut 3 (by decide)
    exact ⟨r, h, hrun, hr.ends rfl, hr.tape, hr.input, hr.trace⟩
  · have hlt : (2 : Nat) < Machine.runLength p { tape := ⟨#[0], 0⟩, streams := full } :=
      Machine.lt_runLength_iff.2 ⟨_, .halt, rfl, rfl, rfl⟩
    obtain ⟨m, hafter, hcut⟩ := (run_cut_at_limit hload full (h := used 2) rfl).2.2.1 hlt
    cases hafter
    obtain ⟨-, r, h, hrun, hr⟩ := hcut 3 (by decide)
    exact ⟨r, h, hrun, hr.fails _ rfl, hr.tape, hr.trace⟩

end Host

end Brainfuck
