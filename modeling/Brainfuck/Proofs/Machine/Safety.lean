import Brainfuck.Proofs.Machine.Step

set_option autoImplicit false

/-! # Any program is safe to run

Programs are not checked before they run: jumps may lead anywhere, and the pointer may start and go
anywhere. Still the memory keeps its size, a cell changes only when an instruction stores into it,
and a run that ends tells the truth about its end: what its outcome says of the memory, of the
pointer and of an instruction is so (`Machine.Reports`). -/

namespace Brainfuck

namespace Machine

variable {p : Program} {limit : Option Nat} {start m m' : Machine} {k : Nat}

/-! ## Along a run -/

/-- The machine after `k` instructions of a run from `start` on. -/
structure Sound (p : Program) (limit : Option Nat) (start : Machine) (k : Nat) (m : Machine) :
    Prop where
  size : m.tape.cells.size = start.tape.cells.size
  ip : m.ip ≤ p.ops.size
  steps : m.steps = k
  limit : ∀ n, limit = some n → k ≤ n

theorem sound_start (hip : start.ip = 0) (hsteps : start.steps = 0) :
    Sound p limit start 0 start :=
  ⟨rfl, by omega, hsteps, fun n _ => Nat.zero_le n⟩

theorem Sound.next (hm : Sound p limit start k m) (h : m.step p limit = .next m') :
    Sound p limit start (k + 1) m' := by
  obtain ⟨op, hgoes⟩ := exists_goesOn h
  refine ⟨hgoes.tape.size_cells.trans hm.size, hgoes.ip, by rw [hgoes.steps, hm.steps], ?_⟩
  intro n hn
  have hfree := hgoes.due.2
  rw [exceeded?, hn, hm.steps, Option.filter_some] at hfree
  by_cases hle : n ≤ k
  · simp [hle] at hfree
  · exact Nat.lt_of_not_le hle

theorem Sound.of_after? (hip : start.ip = 0) (hsteps : start.steps = 0)
    (h : after? p limit k start = some m) : Sound p limit start k m :=
  after?_invariant (P := Sound p limit start) (sound_start hip hsteps)
    (fun _ _ _ _ hm hstep => hm.next hstep) h

/-- Among the first `k` steps of a run is one by which an instruction stores into the cell with this
    number. -/
def StoresInto (p : Program) (limit : Option Nat) (start : Machine) (k i : Nat) : Prop :=
  ∃ j < k, ∃ m m' op, after? p limit j start = some m ∧ m.step p limit = .next m' ∧
    p.ops[m.ip]? = some op ∧ op.storesCell = true ∧ m.tape.pointer.toInt = i

/-- A cell into which nothing was stored is as it was at the start. -/
theorem getElem?_cells_after? {i : Nat} (h : after? p limit k start = some m)
    (hi : ¬ StoresInto p limit start k i) : m.tape.cells[i]? = start.tape.cells[i]? := by
  induction k generalizing m with
  | zero =>
      cases h
      rfl
  | succ k ih =>
      obtain ⟨m₁, hafter, hlast⟩ := after?_succ_iff.1 h
      obtain ⟨op, hgoes⟩ := exists_goesOn hlast
      have hbefore : ¬ StoresInto p limit start k i := by
        rintro ⟨j, hj, hstored⟩
        exact hi ⟨j, Nat.lt_succ_of_lt hj, hstored⟩
      rw [← ih hafter hbefore]
      refine hgoes.tape.getElem?_cells ?_
      intro hstores hpointer
      exact hi ⟨k, Nat.lt_succ_self k, m₁, m, op, hafter, hlast, hgoes.due.1, hstores, hpointer⟩

/-- The step that ends a program stores nothing. -/
theorem cells_of_done {o : Except RunError Unit} (h : m.step p limit = .done o m') :
    m'.tape.cells = m.tape.cells := by
  rcases step_cases p limit m with ⟨-, hend⟩ | ⟨n, -, -, -, hfail⟩ | ⟨op, -, hexec⟩
  · rw [h] at hend
    cases hend
    rfl
  · rw [h] at hfail
    cases hfail
    rfl
  · rw [h] at hexec
    cases hexec <;> rfl

/-- Whether a run is on its way or has ended, its cells are those after some instructions. -/
theorem exists_cells_upTo (p : Program) (limit : Option Nat) (k : Nat) (start : Machine) :
    ∃ j ≤ k, ∃ m, after? p limit j start = some m ∧
      (upTo p limit k start).tape.cells = m.tape.cells := by
  rcases after?_or_runFor k start with ⟨m, hafter⟩ | ⟨o, m', hrun⟩
  · exact ⟨k, Nat.le_refl k, m, hafter, by rw [upTo_of_after? hafter]⟩
  · obtain ⟨j, hj, m, hafter, hlast⟩ := runFor_eq_some_iff.1 hrun
    refine ⟨j, Nat.le_of_lt hj, m, hafter, ?_⟩
    rw [upTo_of_runFor hrun, cells_of_done hlast]

/-! ## The end of a run -/

/-- The outcome tells the truth about a run that ended by a step of `m`, which was the machine after
    `k` instructions, and left this tape behind. -/
def Reports (p : Program) (limit : Option Nat) (k : Nat) (m : Machine) (tape : Tape) :
    Except RunError Unit → Prop
  | .ok () => m.Due p limit .halt ∨ m.ip = p.ops.size
  | .error (.pointerOutOfBounds pointer cells ip) =>
    cells = p.memorySize.toNat ∧ pointer = tape.pointer ∧
      ¬ (0 ≤ pointer.toInt ∧ pointer.toInt < cells) ∧ ip = m.ip ∧
      ∃ op, p.ops[ip]? = some op ∧
        (op.needsCell = true ∨ op.isMove = true ∧ p.boundsCheck = true)
  | .error (.badJump ip target) =>
    ip = m.ip ∧ (target < 0 ∨ p.ops.size < target) ∧
      ∃ op offset, p.ops[ip]? = some op ∧ op.JumpsBy tape offset ∧ ip + offset.toInt = target
  | .error (.stepLimit n) => limit = some n ∧ k = n ∧ m.ip < p.ops.size
  | .error (.stream _) => ∃ op, p.ops[m.ip]? = some op ∧ op.callsStream = true
  | .error (.memoryAllocation _) => False

theorem Sound.reports (hm : Sound p limit start k m)
    (hsize : start.tape.cells.size = p.memorySize.toNat) {o : Except RunError Unit}
    (h : m.step p limit = .done o m') : Reports p limit k m m'.tape o := by
  have hcells := hm.size.trans hsize
  rcases step_cases p limit m with ⟨hend, hstep⟩ | ⟨n, hlimit, hle, hip, hstep⟩ | ⟨op, hdue, hexec⟩
  · rw [h] at hstep
    cases hstep
    exact .inr (Nat.le_antisymm hm.ip hend)
  · rw [h] at hstep
    cases hstep
    rw [hm.steps] at hle
    exact ⟨hlimit, Nat.le_antisymm (hm.limit n hlimit) hle, hip⟩
  · rw [h] at hexec
    cases hexec with
    | jumpsOut hop hout => exact ⟨rfl, hout, op, _, hdue.1, hop, rfl⟩
    | findsNoCell hop hout => exact ⟨hcells, rfl, hout, rfl, op, hdue.1, .inl hop⟩
    | leavesMemory hop hcheck hout =>
        exact ⟨hcells, rfl, hout, rfl, op, hdue.1, .inr ⟨hop, hcheck⟩⟩
    | streamFails hop => exact ⟨op, hdue.1, hop⟩
    | halts hop =>
        subst hop
        exact .inl hdue

theorem jump_of_out {size : Nat} {offset : Int32}
    (hout : m.ip + offset.toInt < 0 ∨ size < m.ip + offset.toInt) :
    m.jump size offset = m.fail (.badJump m.ip (m.ip + offset.toInt)) := by
  rw [jump, if_neg (by omega)]

/-- A jump out of the program ends it. -/
theorem Due.step_of_jumpsBy {op : Op} {offset : Int32} (h : m.Due p limit op)
    (hop : op.JumpsBy m.tape offset)
    (hout : m.ip + offset.toInt < 0 ∨ p.ops.size < m.ip + offset.toInt) :
    m.step p limit = .done (.error (.badJump m.ip (m.ip + offset.toInt)))
      { m with steps := m.steps + 1 } := by
  have hjump := jump_of_out (m := { m with steps := m.steps + 1 }) hout
  rw [h.step_eq]
  rcases hop with rfl | ⟨rfl, hzero⟩
  · exact hjump
  · obtain ⟨i, hi, hget⟩ := Option.map_eq_some_iff.1 hzero
    rw [execute, jumpIfZero]
    simp only [hi, hget, if_true]
    exact hjump

end Machine

/-! ## The result of a run -/

/-- The last flush of the run went through. -/
def RunResult.Flushed (r : RunResult) : Prop :=
  ∃ fault, r.streams.calls.head? = some (.flush fault) ∧ (fault = none ∨ fault = some .zero)

namespace Program

theorem outcome_of_flushed {outcome : Except RunError Unit} {m : Machine}
    (h : (conclude outcome m).Flushed) : (conclude outcome m).outcome = outcome := by
  obtain ⟨fault, hcall, hfault⟩ := h
  rw [streams_conclude, Streams.snd_flush] at hcall
  obtain rfl : m.streams.flushFaults.next.1 = fault := by simpa [Streams.record] using hcall
  apply outcome_conclude
  unfold Streams.flush
  rcases hfault with h | h <;> simp [h]

/-- Whatever the instructions of a program are, on its way and at its end the memory has the
    declared size and is zero where nothing was stored, the outcome is true if the last flush went
    through, and a jump that leads out of the program is reported as that. -/
theorem run_within_declared_state {p : Program} {tape : Tape} (hload : p.load = .ok tape)
    (limit : Option Nat) (before : Tape) (streams : Streams) :
    (∀ k, (Machine.upTo p limit k { tape, streams }).tape.cells.size = p.memorySize.toNat ∧
      ∀ i < p.memorySize.toNat, ¬ Machine.StoresInto p limit { tape, streams } k i →
        (Machine.upTo p limit k { tape, streams }).tape.cells[i]? = some 0) ∧
    (∀ fuel r, p.run limit fuel before streams = some r →
      r.tape = (Machine.upTo p limit fuel { tape, streams }).tape ∧
      (r.Flushed → ∃ k m m', Machine.after? p limit k { tape, streams } = some m ∧
        m.step p limit = .done r.outcome m' ∧ m.Reports p limit k r.tape r.outcome)) ∧
    ∀ k m op offset, Machine.after? p limit k { tape, streams } = some m → m.Due p limit op →
      op.JumpsBy m.tape offset →
      (m.ip + offset.toInt < 0 ∨ p.ops.size < m.ip + offset.toInt) →
      ∃ r, p.run limit (k + 1) before streams = some r ∧
        (r.Flushed → r.outcome = .error (.badJump m.ip (m.ip + offset.toInt))) := by
  have hsize := size_cells_load hload
  refine ⟨?_, ?_, ?_⟩
  · intro k
    obtain ⟨j, hj, m, hafter, hcells⟩ := Machine.exists_cells_upTo p limit k { tape, streams }
    rw [hcells]
    refine ⟨(Machine.Sound.of_after? rfl rfl hafter).size.trans hsize, ?_⟩
    intro i hi hstored
    have hbefore : ¬ Machine.StoresInto p limit { tape, streams } j i := by
      rintro ⟨j', hj', hrest⟩
      exact hstored ⟨j', Nat.lt_of_lt_of_le hj' hj, hrest⟩
    rw [Machine.getElem?_cells_after? hafter hbefore]
    obtain ⟨-, rfl⟩ := load_eq_ok_iff.1 hload
    simp [hi]
  · intro fuel r hrun
    obtain ⟨o, m', hends, rfl⟩ := (run_eq_some_iff hload).1 hrun
    obtain ⟨k, -, m, hafter, hlast⟩ := Machine.runFor_eq_some_iff.1 hends
    rw [tape_conclude, Machine.upTo_of_runFor hends]
    refine ⟨rfl, ?_⟩
    intro hflushed
    rw [outcome_of_flushed hflushed]
    exact ⟨k, m, m', hafter, hlast, (Machine.Sound.of_after? rfl rfl hafter).reports hsize hlast⟩
  · intro k m op offset hafter hdue hjumps hout
    have hends := Machine.runFor_eq_some_iff.2
      ⟨k, Nat.lt_succ_self k, m, hafter, hdue.step_of_jumpsBy hjumps hout⟩
    exact ⟨_, (run_eq_some_iff hload).2 ⟨_, _, hends, rfl⟩, outcome_of_flushed⟩

/-- The pointer starts outside the two cells, and the only instruction leads out of the program. -/
theorem run_within_declared_state_jump :
    (⟨2, 18446744073709551615, true, #[.jump (-5)]⟩ : Program).load
      = .ok { cells := #[0, 0], pointer := -1 } ∧
    ∃ r, (⟨2, 18446744073709551615, true, #[.jump (-5)]⟩ : Program).run (some 1) 1 .empty
        { input := [] } = some r ∧
      (r.Flushed → r.outcome = .error (.badJump 0 (-5))) := by
  have hload : (⟨2, 18446744073709551615, true, #[.jump (-5)]⟩ : Program).load
      = .ok { cells := #[0, 0], pointer := -1 } :=
    load_eq_ok_iff.2 ⟨by decide, by decide⟩
  exact ⟨hload, (run_within_declared_state hload (some 1) .empty { input := [] }).2.2 0
    { tape := { cells := #[0, 0], pointer := -1 }, streams := { input := [] } } (.jump (-5)) (-5)
    rfl ⟨rfl, rfl⟩ (.inl rfl) (.inl (by decide))⟩

end Program

end Brainfuck
