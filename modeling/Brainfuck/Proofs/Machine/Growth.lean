import Brainfuck.Proofs.Machine.Step

set_option autoImplicit false

/-! # Runs in a larger memory

A run depends on the size of the memory only where it traps: the size decides which pointers are at
a cell, and nothing else. With zeros behind its cells (`Machine.grow`), a machine takes the same
steps as long as it does not end by a trap, since every cell that it looks at is one that it had
before. Pointers that leave the smaller memory and come back do not matter, whether they stay inside
the larger one or not. -/

namespace Brainfuck

/-! ## Tapes with more cells -/

namespace Tape

variable {t t' : Tape} {extra : Nat}

/-- The tape with zeros behind its cells. -/
def grow (extra : Nat) (t : Tape) : Tape :=
  { t with cells := t.cells ++ Array.replicate extra 0 }

theorem InRange.grow (h : t.InRange) (extra : Nat) : (t.grow extra).InRange := by
  obtain ⟨hlow, hhigh⟩ := h
  refine ⟨hlow, ?_⟩
  simp only [Tape.grow, Array.size_append, Array.size_replicate]
  omega

theorem cell?_grow {b : UInt8} (h : t.cell? = some b) : (t.grow extra).cell? = some b := by
  have hrange : t.InRange := by
    by_cases hrange : t.InRange
    · exact hrange
    · rw [(cell?_eq_none_iff t).2 ((index?_eq_none_iff t).2 hrange)] at h
      contradiction
  obtain ⟨hlt, hindex⟩ := hrange.index?_eq
  obtain ⟨hlt', hindex'⟩ := (hrange.grow extra).index?_eq
  rw [cell?, hindex] at h
  rw [cell?, hindex', ← h, Option.map_some, Option.map_some]
  exact congrArg some (Array.getElem_append_left hlt)

theorem modify?_grow {f : UInt8 → UInt8} (h : t.modify? f = some t') :
    (t.grow extra).modify? f = some (t'.grow extra) := by
  have hrange := inRange_of_modify? h
  obtain ⟨hlt, hindex⟩ := hrange.index?_eq
  obtain ⟨hlt', hindex'⟩ := (hrange.grow extra).index?_eq
  rw [modify?, hindex, Option.map_some, Option.some.injEq] at h
  subst h
  have hget : (t.grow extra).get ⟨(t.grow extra).pointer.toInt.toNat, hlt'⟩
      = t.get ⟨t.pointer.toInt.toNat, hlt⟩ :=
    Array.getElem_append_left hlt
  rw [modify?, hindex', Option.map_some, hget]
  exact congrArg (fun cells => some { t with cells }) (Array.set_append_left hlt)

end Tape

/-! ## Steps of the grown machine -/

/-- The outcome is a trap: the pointer was at no cell. -/
def IsTrap (outcome : Except RunError Unit) : Prop :=
  ∃ pointer cells ip, outcome = .error (.pointerOutOfBounds pointer cells ip)

/-- The step with the machine it leads to changed. -/
def Step.map (f : Machine → Machine) : Step → Step
  | next m => .next (f m)
  | done outcome m => .done outcome (f m)

namespace Machine

variable {p : Program} {limit : Option Nat} {m : Machine} {extra : Nat}

/-- The machine with zeros behind its cells. -/
def grow (extra : Nat) (m : Machine) : Machine := { m with tape := m.tape.grow extra }

/-- Unless the first step traps, the second one is the same on the grown machine. -/
def Lifts (extra : Nat) (step step' : Step) : Prop :=
  (∃ outcome m, step = .done outcome m ∧ IsTrap outcome) ∨ step' = step.map (grow extra)

theorem lifts_trap (m : Machine) (step' : Step) : Lifts extra m.trap step' :=
  .inl ⟨_, _, rfl, _, _, _, rfl⟩

theorem lifts_updateCell (m : Machine) (f : UInt8 → UInt8) :
    Lifts extra (m.updateCell f) ((m.grow extra).updateCell f) := by
  rw [updateCell_eq, updateCell_eq]
  cases htape : m.tape.modify? f with
  | none => exact lifts_trap m _
  | some tape =>
      have hgrown : (m.grow extra).tape.modify? f = some (tape.grow extra) :=
        Tape.modify?_grow htape
      rw [hgrown]
      exact .inr rfl

theorem lifts_writeCell (m : Machine) : Lifts extra m.writeCell (m.grow extra).writeCell := by
  rw [writeCell_eq, writeCell_eq]
  cases hcell : m.tape.cell? with
  | none => exact lifts_trap m _
  | some b =>
      have hgrown : (m.grow extra).tape.cell? = some b := Tape.cell?_grow hcell
      rw [hgrown]
      show Lifts extra (m.afterWrite (m.streams.write b))
        ((m.grow extra).afterWrite (m.streams.write b))
      rcases m.streams.write b with ⟨_ | _, streams⟩ <;> exact .inr rfl

theorem lifts_readCell (m : Machine) : Lifts extra m.readCell (m.grow extra).readCell := by
  have hstreams : (m.grow extra).streams = m.streams := rfl
  rw [readCell, readCell, hstreams]
  rcases m.streams.flush with ⟨_ | _, streams⟩
  · exact .inr rfl
  · rcases hread : streams.read with ⟨_ | byte, streams'⟩
    · simp only [hread]
      exact .inr rfl
    · simp only [hread]
      exact lifts_updateCell { m with streams := streams' } _

theorem lifts_jump (m : Machine) (size : Nat) (offset : Int32) :
    Lifts extra (m.jump size offset) ((m.grow extra).jump size offset) := by
  by_cases htarget : 0 ≤ m.ip + offset.toInt ∧ m.ip + offset.toInt ≤ size
  · have hjump : m.jump size offset = .next { m with ip := (m.ip + offset.toInt).toNat } :=
      if_pos htarget
    rw [hjump]
    exact .inr (if_pos htarget)
  · have hjump : m.jump size offset = m.fail (.badJump m.ip (m.ip + offset.toInt)) :=
      if_neg htarget
    rw [hjump]
    exact .inr (if_neg htarget)

theorem lifts_jumpIfZero (m : Machine) (size : Nat) (offset : Int32) :
    Lifts extra (m.jumpIfZero size offset) ((m.grow extra).jumpIfZero size offset) := by
  rw [jumpIfZero_eq, jumpIfZero_eq]
  cases hcell : m.tape.cell? with
  | none => exact lifts_trap m _
  | some b =>
      have hgrown : (m.grow extra).tape.cell? = some b := Tape.cell?_grow hcell
      rw [hgrown]
      show Lifts extra (if b = 0 then _ else _) (if b = 0 then _ else _)
      split
      · exact lifts_jump m size offset
      · exact .inr rfl

/-- A move that is not let through is a trap, and one that is let through is so in a larger memory,
    too. -/
theorem lifts_move {op : Op} (hop : op.isMove = true) :
    Lifts extra (m.execute p op) ((m.grow extra).execute p op) := by
  rw [execute_move hop, execute_move hop]
  split
  · exact lifts_trap _ _
  · next hstays =>
    refine .inr (if_neg ?_)
    rintro ⟨hcheck, hout⟩
    exact hstays ⟨hcheck, fun hin => hout (hin.grow extra)⟩

theorem lifts_execute (p : Program) (m : Machine) (op : Op) :
    Lifts extra (m.execute p op) ((m.grow extra).execute p op) := by
  cases op with
  | addCell n => exact lifts_updateCell m (· + n)
  | subCell n => exact lifts_updateCell m (· - n)
  | moveRight n => exact lifts_move rfl
  | moveLeft n => exact lifts_move rfl
  | write => exact lifts_writeCell m
  | read => exact lifts_readCell m
  | jump offset => exact lifts_jump m _ offset
  | jumpIfZero offset => exact lifts_jumpIfZero m _ offset
  | halt => exact .inr rfl

theorem lifts_step (p : Program) (limit : Option Nat) (m : Machine) (extra : Nat) :
    Lifts extra (m.step p limit) ((m.grow extra).step p limit) := by
  cases hop : p.ops[m.ip]? with
  | none =>
      have hgrown : p.ops[(m.grow extra).ip]? = none := hop
      simp only [step, hop, hgrown]
      exact .inr rfl
  | some op =>
      cases hlimit : m.exceeded? limit with
      | some n =>
          have hgrown : p.ops[(m.grow extra).ip]? = some op := hop
          have hlimit' : (m.grow extra).exceeded? limit = some n := hlimit
          simp only [step, hop, hgrown, hlimit, hlimit']
          exact .inr rfl
      | none =>
          have hdue : m.Due p limit op := ⟨hop, hlimit⟩
          have hgrown : (m.grow extra).Due p limit op := hdue
          rw [hdue.step_eq, hgrown.step_eq]
          exact lifts_execute p { m with steps := m.steps + 1 } op

/-- A run that does not end by a trap is the same run on the grown machine. -/
theorem runFor_grow {fuel : Nat}
    (h : ∀ o m', runFor p limit fuel m = some (o, m') → ¬ IsTrap o) :
    runFor p limit fuel (m.grow extra)
      = (runFor p limit fuel m).map (Prod.map id (Machine.grow extra)) := by
  induction fuel generalizing m with
  | zero => rfl
  | succ fuel ih =>
      rw [runFor, runFor]
      rcases lifts_step p limit m extra with ⟨o, m', hstep, htrap⟩ | hstep
      · exact absurd htrap (h o m' (by rw [runFor, hstep]))
      · rw [hstep]
        cases hnext : m.step p limit with
        | done o m' => rfl
        | next m' =>
            refine ih ?_
            intro o m'' hrun
            exact h o m'' (by rw [runFor, hnext]; exact hrun)

end Machine

/-! ## Results -/

namespace Program

/-- The program with a memory of another size. -/
def withMemory (p : Program) (size : UInt64) : Program := { p with memorySize := size }

variable {p : Program} {size : UInt64} {tape tape' : Tape}

/-- Once there is a tape, the declared size does not matter. -/
theorem step_withMemory (p : Program) (size : UInt64) (limit : Option Nat) (m : Machine) :
    m.step (p.withMemory size) limit = m.step p limit := by
  have hexecute : ∀ m op, Machine.execute (p.withMemory size) m op = Machine.execute p m op := by
    intro m op
    cases op <;> rfl
  simp only [Machine.step, hexecute]
  rfl

theorem runFor_withMemory (p : Program) (size : UInt64) (limit : Option Nat) (fuel : Nat)
    (m : Machine) :
    Machine.runFor (p.withMemory size) limit fuel m = Machine.runFor p limit fuel m := by
  induction fuel generalizing m with
  | zero => rfl
  | succ fuel ih => simp only [Machine.runFor, step_withMemory, ih]

theorem load_withMemory (hle : p.memorySize ≤ size) (hload : p.load = .ok tape)
    (hload' : (p.withMemory size).load = .ok tape') :
    tape' = tape.grow (size.toNat - p.memorySize.toNat) := by
  obtain ⟨-, rfl⟩ := load_eq_ok_iff.1 hload
  obtain ⟨-, rfl⟩ := load_eq_ok_iff.1 hload'
  have hsize : size.toNat = p.memorySize.toNat + (size.toNat - p.memorySize.toNat) := by
    have hle' := UInt64.le_iff_toNat_le.1 hle
    omega
  have hcells : Array.replicate size.toNat (0 : UInt8)
      = Array.replicate p.memorySize.toNat 0
        ++ Array.replicate (size.toNat - p.memorySize.toNat) 0 := by
    rw [Array.replicate_append_replicate, ← hsize]
  exact congrArg (fun cells => ({ cells, pointer := p.pointerStart.toInt64 } : Tape)) hcells

theorem conclude_grow (o : Except RunError Unit) (m : Machine) (extra : Nat) :
    conclude o (m.grow extra) = { conclude o m with tape := m.tape.grow extra } := by
  show conclude o { m with tape := _ } = _
  unfold conclude
  rcases m.streams.flush with ⟨_ | _, streams⟩ <;> rfl

/-- In a larger memory a program does the same unless it trapped in the smaller one: it ends after
    as many steps or not at all, with the same outcome, streams and pointer, and with the same cells
    in front of zeros. -/
theorem run_withMemory_of_not_trap (hle : p.memorySize ≤ size) (hload : p.load = .ok tape)
    (hload' : (p.withMemory size).load = .ok tape') (limit : Option Nat) (before : Tape)
    (streams : Streams)
    (hstays : ∀ fuel o m, Machine.runFor p limit fuel { tape, streams } = some (o, m) → ¬ IsTrap o)
    (fuel : Nat) :
    (p.withMemory size).run limit fuel before streams
      = (p.run limit fuel before streams).map fun r =>
          { r with tape := { r.tape with
              cells := r.tape.cells ++ Array.replicate (size.toNat - p.memorySize.toNat) 0 } } := by
  obtain rfl := load_withMemory hle hload hload'
  have hgrown : Machine.runFor p limit fuel
        { tape := tape.grow (size.toNat - p.memorySize.toNat), streams }
      = (Machine.runFor p limit fuel { tape, streams }).map
          (Prod.map id (Machine.grow (size.toNat - p.memorySize.toNat))) :=
    Machine.runFor_grow (hstays fuel)
  rw [run, run, hload, hload']
  simp only [runFor_withMemory, hgrown, Option.map_map]
  congr 1
  funext ended
  obtain ⟨o, m⟩ := ended
  simp only [Function.comp, Prod.map, id, conclude_grow, tape_conclude]
  rfl

/-- A pointer that goes out of two cells, and also out of four, and comes back to store a byte. -/
theorem run_withMemory_of_not_trap_excursion :
    let p : Program := ⟨2, 1, false, #[.moveRight 5, .moveLeft 6, .addCell 7, .halt]⟩
    p.load = .ok ⟨#[0, 0], 1⟩ ∧ (p.withMemory 4).load = .ok ⟨#[0, 0, 0, 0], 1⟩ ∧
      (p.run none 4 .empty { input := [] }).map (·.tape) = some ⟨#[7, 0], 0⟩ ∧
      ((p.withMemory 4).run none 4 .empty { input := [] }).map (·.tape)
        = some ⟨#[7, 0, 0, 0], 0⟩ := by
  intro p
  have hload : p.load = .ok ⟨#[0, 0], 1⟩ := load_eq_ok_iff.2 ⟨by decide, by decide⟩
  have hload' : (p.withMemory 4).load = .ok ⟨#[0, 0, 0, 0], 1⟩ :=
    load_eq_ok_iff.2 ⟨by decide, by decide⟩
  have hends : Machine.runFor p none 4 { tape := ⟨#[0, 0], 1⟩, streams := { input := [] } }
      = some (.ok (), { tape := ⟨#[7, 0], 0⟩, streams := { input := [] }, ip := 3, steps := 4 }) :=
    rfl
  have hrun : (p.run none 4 .empty { input := [] }).map (·.tape) = some ⟨#[7, 0], 0⟩ := by
    rw [(run_eq_some_iff hload).2 ⟨_, _, hends, rfl⟩]
    rfl
  refine ⟨hload, hload', hrun, ?_⟩
  rw [run_withMemory_of_not_trap (by decide) hload hload' none .empty { input := [] } ?_ 4]
  · rw [(run_eq_some_iff hload).2 ⟨_, _, hends, rfl⟩]
    rfl
  · rintro fuel o m hrun ⟨pointer, cells, ip, rfl⟩
    have hsame := Machine.runFor_unique hends hrun
    cases hsame

end Program

end Brainfuck
