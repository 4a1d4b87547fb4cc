import Brainfuck.Proofs.Machine.Run
import Brainfuck.Proofs.Machine.Stream
import Brainfuck.Proofs.Machine.Tape

set_option autoImplicit false

/-! # What a step can do

All that an instruction can come to is said once: it changes the tape in its own way and the machine
goes on behind it, it jumps, or it ends the program for one of the reasons that there are for it
(`Machine.Executes`). What holds along a run is then a matter of these few cases, and not of the
instructions one by one. -/

namespace Brainfuck

/-! ## Instructions and tapes -/

namespace Op

/-- How far the instruction moves the pointer to the right. -/
def displacement : Op → Int
  | moveRight n => n.toNat
  | moveLeft n => -n.toNat
  | _ => 0

/-- Whether the instruction moves the pointer. -/
def isMove : Op → Bool
  | moveRight _ | moveLeft _ => true
  | _ => false

/-- Whether the instruction gives the cell under the pointer a value. -/
def storesCell : Op → Bool
  | addCell _ | subCell _ | read => true
  | _ => false

/-- Whether the instruction needs a cell under the pointer. -/
def needsCell : Op → Bool
  | addCell _ | subCell _ | write | read | jumpIfZero _ => true
  | _ => false

/-- Whether the instruction calls a stream. -/
def callsStream : Op → Bool
  | write | read => true
  | _ => false

/-- On this tape, the instruction goes on at this distance. -/
def JumpsBy (op : Op) (t : Tape) (offset : Int32) : Prop :=
  op = .jump offset ∨ op = .jumpIfZero offset ∧ t.cell? = some 0

/-- What the instruction can make of a tape: it moves the pointer, or it gives the cell under the
    pointer a value. -/
inductive Changes (op : Op) (t : Tape) : Tape → Prop
  | shift : Changes op t (t.shift op.displacement)
  | store {f : UInt8 → UInt8} {t' : Tape} (hstores : op.storesCell = true)
      (h : t.modify? f = some t') : Changes op t t'

theorem displacement_of_isMove {op : Op} (h : op.isMove = false) : op.displacement = 0 := by
  cases op <;> first | rfl | contradiction

theorem displacement_of_storesCell {op : Op} (h : op.storesCell = true) :
    op.displacement = 0 := by
  cases op <;> first | rfl | contradiction

namespace Changes

variable {op : Op} {t t' : Tape}

theorem refl (h : op.isMove = false) (t : Tape) : Changes op t t := by
  have hshift : Changes op t (t.shift op.displacement) := .shift
  rwa [displacement_of_isMove h, Tape.shift_zero] at hshift

theorem pointer_eq (h : Changes op t t') :
    t'.pointer = t.pointer + Int64.ofInt op.displacement := by
  cases h with
  | shift => rfl
  | store hstores h => simp [Tape.pointer_modify? h, displacement_of_storesCell hstores]

theorem size_cells (h : Changes op t t') : t'.cells.size = t.cells.size := by
  cases h with
  | shift => rfl
  | store hstores h => exact Tape.size_cells_modify? h

/-- A cell keeps its value unless the instruction stores one and the pointer is there. -/
theorem getElem?_cells (h : Changes op t t') {i : Nat}
    (hi : op.storesCell = true → t.pointer.toInt ≠ i) : t'.cells[i]? = t.cells[i]? := by
  cases h with
  | shift => rfl
  | store hstores h => exact Tape.getElem?_cells_modify? h (hi hstores)

/-- As long as the pointer does not move, whether it is at a cell does not change. -/
theorem inRange_iff (h : Changes op t t') (hmove : op.isMove = false) :
    t'.InRange ↔ t.InRange := by
  rw [Tape.InRange, Tape.InRange, h.pointer_eq, h.size_cells, displacement_of_isMove hmove]
  simp

end Changes

end Op

/-! ## Executing an instruction -/

namespace Machine

/-- What executing an instruction of `p` can come to. -/
inductive Executes (p : Program) (m : Machine) (op : Op) : Step → Prop
  | goesOn {tape : Tape} {streams : Streams} (htape : op.Changes m.tape tape)
      (hmove : op.isMove = true → p.boundsCheck = true → tape.InRange)
      (hstreams : m.streams.Continue streams) :
      Executes p m op (.next { m with tape, streams, ip := m.ip + 1 })
  | jumps {offset : Int32} (hop : op.JumpsBy m.tape offset)
      (hlow : 0 ≤ m.ip + offset.toInt) (hhigh : m.ip + offset.toInt ≤ p.ops.size) :
      Executes p m op (.next { m with ip := (m.ip + offset.toInt).toNat })
  | jumpsOut {offset : Int32} (hop : op.JumpsBy m.tape offset)
      (hout : m.ip + offset.toInt < 0 ∨ p.ops.size < m.ip + offset.toInt) :
      Executes p m op (m.fail (.badJump m.ip (m.ip + offset.toInt)))
  | findsNoCell {streams : Streams} (hop : op.needsCell = true) (hout : ¬ m.tape.InRange)
      (hstreams : m.streams.Continue streams) :
      Executes p m op { m with streams }.trap
  | leavesMemory (hop : op.isMove = true) (hcheck : p.boundsCheck = true)
      (hout : ¬ (m.tape.shift op.displacement).InRange) :
      Executes p m op { m with tape := m.tape.shift op.displacement }.trap
  | streamFails {streams : Streams} (hop : op.callsStream = true) (e : StreamError)
      (hstreams : m.streams.Continue streams) :
      Executes p m op ({ m with streams }.fail (.stream e))
  | halts (hop : op = .halt) : Executes p m op (.done (.ok ()) m)

variable {p : Program} {m : Machine}

theorem updateCell_eq (m : Machine) (f : UInt8 → UInt8) :
    m.updateCell f = match m.tape.modify? f with
      | none => m.trap
      | some tape => { m with tape }.advance := by
  unfold updateCell Tape.modify?
  cases m.tape.index? <;> rfl

/-- What comes after an attempt to write. -/
def afterWrite (m : Machine) : Except StreamError Unit × Streams → Step
  | (.error e, streams) => { m with streams }.fail (.stream e)
  | (.ok (), streams) => { m with streams }.advance

theorem writeCell_eq (m : Machine) :
    m.writeCell = match m.tape.cell? with
      | none => m.trap
      | some b => m.afterWrite (m.streams.write b) := by
  unfold writeCell Tape.cell?
  cases m.tape.index? <;> rfl

theorem jumpIfZero_eq (m : Machine) (size : Nat) (offset : Int32) :
    m.jumpIfZero size offset = match m.tape.cell? with
      | none => m.trap
      | some b => if b = 0 then m.jump size offset else m.advance := by
  unfold jumpIfZero Tape.cell?
  cases m.tape.index? <;> rfl

/-- Storing a cell, possibly after calls of the streams. -/
theorem executes_updateCell {op : Op} (hop : op.storesCell = true) (hcell : op.needsCell = true)
    {streams : Streams} (hstreams : m.streams.Continue streams) (f : UInt8 → UInt8) :
    Executes p m op ({ m with streams }.updateCell f) := by
  rw [updateCell_eq]
  split
  · next hnone =>
    have hout := (Tape.index?_eq_none_iff _).1 ((Tape.modify?_eq_none_iff _ _).1 hnone)
    exact .findsNoCell hcell hout hstreams
  · next tape htape =>
    have hmove : op.isMove = false := by cases op <;> first | rfl | contradiction
    exact .goesOn (.store hop htape) (by simp [hmove]) hstreams

/-- A move shifts the tape, and where moves are checked the pointer has to be at a cell then. -/
theorem execute_move {op : Op} (hop : op.isMove = true) :
    m.execute p op =
      if p.boundsCheck = true ∧ ¬ (m.tape.shift op.displacement).InRange
      then { m with tape := m.tape.shift op.displacement }.trap
      else { m with tape := m.tape.shift op.displacement }.advance := by
  have hcheck : ∀ tape, { m with tape }.checkMove p.boundsCheck
      = if p.boundsCheck = true ∧ ¬ tape.InRange then { m with tape }.trap
        else { m with tape }.advance := by
    intro tape
    simp only [checkMove, Bool.and_eq_true, Tape.isNone_index?_iff]
  cases op with
  | moveRight n => rw [execute, Tape.moveRight_eq_shift, hcheck]; rfl
  | moveLeft n => rw [execute, Tape.moveLeft_eq_shift, hcheck]; rfl
  | _ => contradiction

theorem executes_move {op : Op} (hop : op.isMove = true) :
    Executes p m op (m.execute p op) := by
  rw [execute_move hop]
  split
  · next h => exact .leavesMemory hop h.1 h.2
  · next h =>
    refine .goesOn .shift ?_ (.refl _)
    intro _ hcheck
    exact Classical.not_not.1 fun hout => h ⟨hcheck, hout⟩

theorem executes_jump {op : Op} {offset : Int32} (hop : op.JumpsBy m.tape offset) :
    Executes p m op (m.jump p.ops.size offset) := by
  simp only [jump]
  split
  · next h => exact .jumps hop h.1 h.2
  · next h => exact .jumpsOut hop (by omega)

theorem executes_writeCell : Executes p m .write m.writeCell := by
  unfold writeCell
  split
  · next hnone => exact .findsNoCell rfl ((Tape.index?_eq_none_iff _).1 hnone) (.refl _)
  · next i _ =>
    have hstreams := m.streams.continue_write (m.tape.get i)
    split
    · next e streams hwrite =>
      rw [hwrite] at hstreams
      exact .streamFails rfl e hstreams
    · next streams hwrite =>
      rw [hwrite] at hstreams
      exact .goesOn (.refl rfl _) (by simp [Op.isMove]) hstreams

theorem executes_readCell : Executes p m .read m.readCell := by
  unfold readCell
  have hflush := m.streams.continue_flush
  split
  · next e streams hfails =>
    rw [hfails] at hflush
    exact .streamFails rfl e hflush
  · next flushed hflushed =>
    rw [hflushed] at hflush
    have hread := hflush.trans flushed.continue_read
    split
    · next e streams hfails =>
      rw [hfails] at hread
      exact .streamFails rfl e hread
    · next byte streams htaken =>
      rw [htaken] at hread
      exact executes_updateCell rfl rfl hread _

theorem executes_jumpIfZero (offset : Int32) :
    Executes p m (.jumpIfZero offset) (m.jumpIfZero p.ops.size offset) := by
  unfold jumpIfZero
  split
  · next hnone => exact .findsNoCell rfl ((Tape.index?_eq_none_iff _).1 hnone) (.refl _)
  · next i hi =>
    split
    · next hzero => exact executes_jump (.inr ⟨rfl, by rw [Tape.cell?, hi, ← hzero]; rfl⟩)
    · exact .goesOn (.refl rfl _) (by simp [Op.isMove]) (.refl _)

/-- Whatever the instruction is, it comes to one of the cases. -/
theorem executes_execute (p : Program) (m : Machine) (op : Op) :
    Executes p m op (m.execute p op) := by
  cases op with
  | addCell n => exact executes_updateCell rfl rfl (.refl m.streams) (· + n)
  | subCell n => exact executes_updateCell rfl rfl (.refl m.streams) (· - n)
  | moveRight n => exact executes_move rfl
  | moveLeft n => exact executes_move rfl
  | write => exact executes_writeCell
  | read => exact executes_readCell
  | jump offset => exact executes_jump (.inl rfl)
  | jumpIfZero offset => exact executes_jumpIfZero offset
  | halt => exact .halts rfl

/-! ## One step -/

variable {limit : Option Nat}

/-- The next step executes this instruction: it is due, and the limit does not forbid it. -/
def Due (p : Program) (limit : Option Nat) (m : Machine) (op : Op) : Prop :=
  p.ops[m.ip]? = some op ∧ m.exceeded? limit = none

theorem Due.step_eq {op : Op} (h : m.Due p limit op) :
    m.step p limit = { m with steps := m.steps + 1 }.execute p op := by
  simp only [step, h.1, h.2]

theorem Due.ip_lt {op : Op} (h : m.Due p limit op) : m.ip < p.ops.size :=
  (Array.getElem?_eq_some_iff.1 h.1).1

/-- A step finds the program at its end, or the limit used up, or it executes an instruction. -/
theorem step_cases (p : Program) (limit : Option Nat) (m : Machine) :
    (p.ops.size ≤ m.ip ∧ m.step p limit = .done (.ok ()) m) ∨
    (∃ n, limit = some n ∧ n ≤ m.steps ∧ m.ip < p.ops.size ∧
      m.step p limit = m.fail (.stepLimit n)) ∨
    ∃ op, m.Due p limit op ∧ Executes p { m with steps := m.steps + 1 } op (m.step p limit) := by
  cases hop : p.ops[m.ip]? with
  | none => exact .inl ⟨Array.getElem?_eq_none_iff.1 hop, by simp only [step, hop]⟩
  | some op =>
      cases hlimit : m.exceeded? limit with
      | some n =>
          obtain ⟨hn, hle⟩ := Option.filter_eq_some_iff.1 hlimit
          refine .inr (.inl ⟨n, hn, of_decide_eq_true hle, ?_, by simp only [step, hop, hlimit]⟩)
          exact (Array.getElem?_eq_some_iff.1 hop).1
      | none =>
          have hdue : m.Due p limit op := ⟨hop, hlimit⟩
          refine .inr (.inr ⟨op, hdue, ?_⟩)
          rw [hdue.step_eq]
          exact executes_execute p _ op

/-- A step by which the program goes on. -/
structure GoesOn (p : Program) (limit : Option Nat) (m : Machine) (op : Op) (m' : Machine) :
    Prop where
  due : m.Due p limit op
  tape : op.Changes m.tape m'.tape
  inRange : op.isMove = true → p.boundsCheck = true → m'.tape.InRange
  streams : m.streams.Continue m'.streams
  steps : m'.steps = m.steps + 1
  ip : m'.ip ≤ p.ops.size

theorem exists_goesOn {m' : Machine} (h : m.step p limit = .next m') :
    ∃ op, GoesOn p limit m op m' := by
  rcases step_cases p limit m with ⟨-, hend⟩ | ⟨n, -, -, -, hfail⟩ | ⟨op, hdue, hexec⟩
  · rw [h] at hend
    contradiction
  · rw [h] at hfail
    contradiction
  · rw [h] at hexec
    have hlt := hdue.ip_lt
    cases hexec with
    | goesOn htape hmove hstreams => exact ⟨op, hdue, htape, hmove, hstreams, rfl, hlt⟩
    | @jumps offset hop hlow hhigh =>
        have hmove : op.isMove = false := by
          rcases hop with rfl | ⟨rfl, -⟩ <;> rfl
        refine ⟨op, hdue, .refl hmove _, by simp [hmove], .refl _, rfl, ?_⟩
        show (m.ip + offset.toInt).toNat ≤ p.ops.size
        exact Int.toNat_le.2 hhigh

theorem continue_of_done {m' : Machine} {o : Except RunError Unit}
    (h : m.step p limit = .done o m') : m.streams.Continue m'.streams := by
  rcases step_cases p limit m with ⟨-, hend⟩ | ⟨n, -, -, -, hfail⟩ | ⟨op, -, hexec⟩
  · rw [h] at hend
    cases hend
    exact .refl _
  · rw [h] at hfail
    cases hfail
    exact .refl _
  · rw [h] at hexec
    cases hexec with
    | jumpsOut => exact .refl _
    | findsNoCell _ _ hstreams => exact hstreams
    | leavesMemory => exact .refl _
    | streamFails _ _ hstreams => exact hstreams
    | halts => exact .refl _

/-- Along a run, streams only go on. -/
theorem continue_upTo (p : Program) (limit : Option Nat) (k : Nat) (m : Machine) :
    m.streams.Continue (upTo p limit k m).streams := by
  induction k generalizing m with
  | zero => exact .refl _
  | succ k ih =>
      rw [upTo]
      cases hstep : m.step p limit with
      | next m' =>
          obtain ⟨op, hgoes⟩ := exists_goesOn hstep
          exact hgoes.streams.trans (ih m')
      | done o m' => exact continue_of_done hstep

end Machine

end Brainfuck
