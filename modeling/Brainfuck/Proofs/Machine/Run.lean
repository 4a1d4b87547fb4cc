import Brainfuck.Machine.Outcome
import Brainfuck.Proofs.Machine.Stream

set_option autoImplicit false

/-! # Parts of a run

A run can be cut after any instruction and put together again: the machine after some instructions
(`Machine.after?`) goes on as the whole run does, with what is left of the fuel. Two runs of one
machine that both end do so in the same way, however much fuel they were given.

What holds all along a run is proved by its last step: the machine after one instruction more is one
step ahead (`Machine.after?_succ_iff`), and a run ends by a last step of some machine on its way
(`Machine.runFor_eq_some_iff`). -/

namespace Brainfuck

namespace Machine

variable {p : Program} {limit : Option Nat}

theorem after?_one {m m' : Machine} (h : m.step p limit = .next m') :
    after? p limit 1 m = some m' := by
  rw [after?, h]
  rfl

theorem after?_of_next {m m' : Machine} (h : m.step p limit = .next m') (k : Nat) :
    after? p limit (k + 1) m = after? p limit k m' := by
  rw [after?, h]

theorem after?_succ_iff {k : Nat} {m m'' : Machine} :
    after? p limit (k + 1) m = some m'' ↔
      ∃ m', after? p limit k m = some m' ∧ m'.step p limit = .next m'' := by
  induction k generalizing m with
  | zero => cases hstep : m.step p limit <;> simp [after?, hstep]
  | succ k ih =>
      cases hstep : m.step p limit with
      | next m₁ =>
          rw [after?_of_next hstep, after?_of_next hstep]
          exact ih
      | done o m₁ => simp [after?, hstep]

/-- What holds at the start and is kept by every step holds all along a run. -/
theorem after?_invariant {m : Machine} {P : Nat → Machine → Prop} (hstart : P 0 m)
    (hstep : ∀ k m₁ m₂, after? p limit k m = some m₁ → P k m₁ →
      m₁.step p limit = .next m₂ → P (k + 1) m₂)
    {k : Nat} {m' : Machine} (h : after? p limit k m = some m') : P k m' := by
  induction k generalizing m' with
  | zero =>
      cases h
      exact hstart
  | succ k ih =>
      obtain ⟨m₁, hafter, hlast⟩ := after?_succ_iff.1 h
      exact hstep k m₁ m' hafter (ih hafter) hlast

theorem after?_add {j k : Nat} {m m₁ m₂ : Machine} (h₁ : after? p limit j m = some m₁)
    (h₂ : after? p limit k m₁ = some m₂) : after? p limit (j + k) m = some m₂ := by
  induction j generalizing m with
  | zero =>
      cases h₁
      rw [Nat.zero_add]
      exact h₂
  | succ j ih =>
      rw [Nat.add_right_comm, after?]
      rw [after?] at h₁
      split
      · next m' hstep =>
        rw [hstep] at h₁
        exact ih h₁
      · next hstep =>
        rw [hstep] at h₁
        contradiction

/-- A run that ends has fuel for all the instructions that are known to be executed. -/
theorem runFor_of_after? {k fuel : Nat} {m m' : Machine} {r : Except RunError Unit × Machine}
    (hafter : after? p limit k m = some m') (hrun : runFor p limit fuel m = some r) :
    ∃ left, fuel = k + left ∧ runFor p limit left m' = some r := by
  induction k generalizing m fuel with
  | zero =>
      cases hafter
      exact ⟨fuel, (Nat.zero_add fuel).symm, hrun⟩
  | succ k ih =>
      cases fuel with
      | zero => simp [runFor] at hrun
      | succ fuel =>
          rw [after?] at hafter
          rw [runFor] at hrun
          split at hafter
          · next m₁ hstep =>
            rw [hstep] at hrun
            obtain ⟨left, hleft, hrun⟩ := ih hafter hrun
            exact ⟨left, by omega, hrun⟩
          · contradiction

theorem runFor_of_step_done {m m' : Machine} {o : Except RunError Unit}
    (h : m.step p limit = .done o m') : runFor p limit 1 m = some (o, m') := by
  rw [runFor, h]

theorem runFor_eq_some_iff {fuel : Nat} {m m'' : Machine} {o : Except RunError Unit} :
    runFor p limit fuel m = some (o, m'') ↔
      ∃ k < fuel, ∃ m', after? p limit k m = some m' ∧ m'.step p limit = .done o m'' := by
  constructor
  · intro h
    induction fuel generalizing m with
    | zero => simp [runFor] at h
    | succ fuel ih =>
        rw [runFor] at h
        split at h
        · next m₁ hstep =>
          obtain ⟨k, hk, m', hafter, hlast⟩ := ih h
          refine ⟨k + 1, Nat.succ_lt_succ hk, m', ?_, hlast⟩
          rw [after?, hstep]
          exact hafter
        · next o' m₁ hstep =>
          obtain ⟨rfl, rfl⟩ : o' = o ∧ m₁ = m'' := by simpa using h
          exact ⟨0, Nat.succ_pos fuel, m, rfl, hstep⟩
  · rintro ⟨k, hk, m', hafter, hlast⟩
    obtain ⟨more, rfl⟩ := Nat.exists_eq_add_of_lt hk
    rw [Nat.add_assoc, Nat.add_comm more 1, ← Nat.add_assoc]
    refine runFor_add ?_ more
    rw [runFor_after? hafter]
    exact runFor_of_step_done hlast

/-- After so many steps, a run is still on its way or has ended. -/
theorem after?_or_runFor (k : Nat) (m : Machine) :
    (∃ m', after? p limit k m = some m') ∨ ∃ o m', runFor p limit k m = some (o, m') := by
  induction k generalizing m with
  | zero => exact .inl ⟨m, rfl⟩
  | succ k ih =>
      rw [after?, runFor]
      cases hstep : m.step p limit with
      | next m₁ => exact ih m₁
      | done o m₁ => exact .inr ⟨o, m₁, rfl⟩

/-- The machine after `k` steps, or as the program has left it when it ended before. -/
def upTo (p : Program) (limit : Option Nat) : (k : Nat) → Machine → Machine
  | 0, m => m
  | k + 1, m =>
    match m.step p limit with
    | .next m => upTo p limit k m
    | .done _ m => m

theorem upTo_add {j : Nat} {m m' : Machine} (h : after? p limit j m = some m') (k : Nat) :
    upTo p limit (j + k) m = upTo p limit k m' := by
  induction j generalizing m with
  | zero =>
      cases h
      rw [Nat.zero_add]
  | succ j ih =>
      rw [Nat.add_right_comm, upTo]
      rw [after?] at h
      split
      · next m₁ hstep =>
        rw [hstep] at h
        exact ih h
      · next hstep =>
        rw [hstep] at h
        contradiction

theorem upTo_of_after? {k : Nat} {m m' : Machine} (h : after? p limit k m = some m') :
    upTo p limit k m = m' :=
  upTo_add h 0

theorem upTo_of_runFor {fuel : Nat} {m m' : Machine} {o : Except RunError Unit}
    (h : runFor p limit fuel m = some (o, m')) : upTo p limit fuel m = m' := by
  obtain ⟨k, hk, m₁, hafter, hlast⟩ := runFor_eq_some_iff.1 h
  obtain ⟨more, rfl⟩ := Nat.exists_eq_add_of_lt hk
  rw [Nat.add_assoc, upTo_add hafter, upTo, hlast]

theorem runFor_unique {fuel fuel' : Nat} {m : Machine} {r r' : Except RunError Unit × Machine}
    (h : runFor p limit fuel m = some r) (h' : runFor p limit fuel' m = some r') : r = r' := by
  have hmore := runFor_add h fuel'
  have hmore' := runFor_add h' fuel
  rw [Nat.add_comm fuel' fuel, hmore] at hmore'
  exact Option.some.inj hmore'

end Machine

/-! ## Results -/

namespace Program

theorem load_eq_ok_iff {p : Program} {tape : Tape} :
    p.load = .ok tape ↔ p.memorySize.toNat < Tape.cellLimit ∧
      tape = { cells := Array.replicate p.memorySize.toNat 0,
               pointer := p.pointerStart.toInt64 } := by
  unfold load Tape.blank?
  by_cases hroom : p.memorySize.toNat < Tape.cellLimit
  · simp [hroom, eq_comm]
  · simp [hroom]

theorem size_cells_load {p : Program} {tape : Tape} (h : p.load = .ok tape) :
    tape.cells.size = p.memorySize.toNat := by
  obtain ⟨-, rfl⟩ := load_eq_ok_iff.1 h
  exact Array.size_replicate

theorem tape_conclude (outcome : Except RunError Unit) (m : Machine) :
    (conclude outcome m).tape = m.tape := by
  unfold conclude
  split <;> rfl

theorem streams_conclude (outcome : Except RunError Unit) (m : Machine) :
    (conclude outcome m).streams = m.streams.flush.2 := by
  unfold conclude
  split <;> simp_all

theorem outcome_conclude {outcome : Except RunError Unit} {m : Machine}
    (h : m.streams.flush.1 = .ok ()) : (conclude outcome m).outcome = outcome := by
  unfold conclude
  split
  · rfl
  · simp_all

/-- If the last flush fails, its error is the outcome. -/
theorem outcome_conclude_of_flush_fails {outcome : Except RunError Unit} {m : Machine}
    {e : StreamError} (h : m.streams.flush.1 = .error e) :
    (conclude outcome m).outcome = .error (.stream e) := by
  unfold conclude
  split
  · simp_all
  · simp_all

/-- A run succeeds only if its instructions end well. -/
theorem ok_of_outcome_conclude {outcome : Except RunError Unit} {m : Machine}
    (h : (conclude outcome m).outcome = .ok ()) : outcome = .ok () := by
  unfold conclude at h
  split at h
  · exact h
  · contradiction

/-- The result of a run is how its instructions end, and the last flush. -/
theorem run_eq_some_iff {p : Program} {tape : Tape} (hload : p.load = .ok tape)
    {limit : Option Nat} {fuel : Nat} {before : Tape} {streams : Streams} {r : RunResult} :
    p.run limit fuel before streams = some r ↔
      ∃ o m, Machine.runFor p limit fuel { tape, streams } = some (o, m) ∧ conclude o m = r := by
  rw [run, hload]
  simp [Option.map_eq_some_iff]

end Program

end Brainfuck
