import Brainfuck.Proofs.Machine.Safety
import Mathlib.Algebra.Ring.Int.Defs

set_option autoImplicit false

/-! # Where checked moves lead

The moves of a run add up to a position, which is an integer and may lie anywhere
(`Program.position`). The pointer is this position as a signed word. A checked move looks only at
the word, so it tells positions apart modulo the number of all words: it goes on if the position
behind it is, modulo that number, the number of a cell.

As long as no instruction moves further than the complement of the memory size, this is exact: the
pointer is the position, and a move goes on exactly if it stays in the memory. Beyond that it is
not, since a longer move can lead around all words and back into the memory. -/

namespace Brainfuck

/-! ## Integers as pointers -/

namespace Tape

variable {cells : Array UInt8} {x : Int}

/-- The pointer of a tape that has room is at a cell if it is one modulo the number of words. -/
theorem inRange_ofInt_iff (hroom : cells.size < cellLimit) :
    InRange { cells, pointer := Int64.ofInt x } ↔ x % UInt64.size < cells.size := by
  have hlimit : cellLimit = 4611686018427387904 := by decide
  simp only [InRange, Int64.toInt_ofInt, Int.bmod_def, Int64.size, UInt64.size]
  split <;> omega

theorem toInt_ofInt_of_inRange (h : InRange { cells, pointer := Int64.ofInt x }) :
    (Int64.ofInt x).toInt = x % UInt64.size := by
  simp only [InRange, Int64.toInt_ofInt, Int.bmod_def, Int64.size, UInt64.size] at h ⊢
  split at h <;> omega

end Tape

/-- From within the memory, a distance up to the complement of its size leads to no cell by going
    around all words. -/
theorem emod_size_lt_iff {x d : Int} {cells : Nat} (hlow : 0 ≤ x) (hhigh : x < cells)
    (hroom : cells < Tape.cellLimit) (hd : d.natAbs ≤ UInt64.size - cells) :
    (x + d) % UInt64.size < cells ↔ 0 ≤ x + d ∧ x + d < cells := by
  have hlimit : Tape.cellLimit = 4611686018427387904 := by decide
  simp only [UInt64.size] at hd ⊢
  omega

/-! ## Positions -/

namespace Machine

/-- The instructions of the first `k` steps of a run, in their order. -/
def executed (p : Program) (limit : Option Nat) (start : Machine) (k : Nat) : List Op :=
  (List.range k).filterMap fun j => (after? p limit j start).bind fun m => p.ops[m.ip]?

/-- The next step takes the pointer to `x`, as a word. If `inside` holds the run goes on from there,
    and otherwise it traps there. -/
def MovesTo (p : Program) (limit : Option Nat) (m : Machine) (x : Int) (inside : Prop) : Prop :=
  (inside → ∃ m', m.step p limit = .next m' ∧ m'.tape.pointer = Int64.ofInt x) ∧
  (¬ inside → ∃ m', m.step p limit
    = .done (.error (.pointerOutOfBounds (Int64.ofInt x) p.memorySize.toNat m.ip)) m')

theorem MovesTo.congr {p : Program} {limit : Option Nat} {m : Machine} {x : Int}
    {inside inside' : Prop} (h : m.MovesTo p limit x inside) (hiff : inside ↔ inside') :
    m.MovesTo p limit x inside' :=
  ⟨fun hin => h.1 (hiff.2 hin), fun hout => h.2 fun hin => hout (hiff.1 hin)⟩

/-- A checked move goes on exactly if, modulo the number of words, it leads to a cell. -/
theorem Due.movesTo {p : Program} {limit : Option Nat} {m : Machine} {op : Op} {x : Int}
    (hdue : m.Due p limit op) (hmove : op.isMove = true) (hcheck : p.boundsCheck = true)
    (hsize : m.tape.cells.size = p.memorySize.toNat) (hroom : p.memorySize.toNat < Tape.cellLimit)
    (hpointer : m.tape.pointer = Int64.ofInt x) :
    m.MovesTo p limit (x + op.displacement)
      ((x + op.displacement) % UInt64.size < p.memorySize.toNat) := by
  have hshift : m.tape.shift op.displacement
      = { cells := m.tape.cells, pointer := Int64.ofInt (x + op.displacement) } := by
    rw [Tape.shift, hpointer, Int64.ofInt_add]
  have hrange : (m.tape.shift op.displacement).InRange
      ↔ (x + op.displacement) % UInt64.size < p.memorySize.toNat := by
    rw [hshift, Tape.inRange_ofInt_iff (hsize ▸ hroom), hsize]
  rw [MovesTo, hdue.step_eq, execute_move hmove, ← hrange]
  constructor
  · intro hin
    rw [if_neg fun h => h.2 hin]
    exact ⟨_, rfl, congrArg Tape.pointer hshift⟩
  · intro hout
    rw [if_pos ⟨hcheck, hout⟩, hshift, ← hsize]
    exact ⟨_, rfl⟩

end Machine

namespace Program

variable {p : Program} {limit : Option Nat} {tape : Tape} {streams : Streams} {k : Nat}
  {m : Machine} {op : Op}

/-- Where the first `k` steps of a run lead from the place where the pointer starts: as far to the
    right as all its moves to the right together, less all its moves to the left. -/
def position (p : Program) (limit : Option Nat) (start : Machine) (k : Nat) : Int :=
  p.pointerStart.toNat + ((Machine.executed p limit start k).map Op.displacement).sum

theorem position_zero (p : Program) (limit : Option Nat) (start : Machine) :
    p.position limit start 0 = p.pointerStart.toNat := by
  simp [position, Machine.executed]

theorem position_succ {start : Machine} (hafter : Machine.after? p limit k start = some m)
    (hop : p.ops[m.ip]? = some op) :
    p.position limit start (k + 1) = p.position limit start k + op.displacement := by
  simp [position, Machine.executed, List.range_succ, hafter, hop, Int.add_assoc]

theorem pointer_load (hload : p.load = .ok tape) :
    tape.pointer = Int64.ofInt p.pointerStart.toNat := by
  obtain ⟨-, rfl⟩ := load_eq_ok_iff.1 hload
  rw [Int64.ofInt_eq_ofNat, ← UInt64.toInt64_ofNat', UInt64.ofNat_toNat]

/-- The pointer is the position as a word. -/
theorem pointer_after? (hload : p.load = .ok tape)
    (h : Machine.after? p limit k { tape, streams } = some m) :
    m.tape.pointer = Int64.ofInt (p.position limit { tape, streams } k) := by
  refine Machine.after?_invariant
    (P := fun k m => m.tape.pointer = Int64.ofInt (p.position limit { tape, streams } k)) ?_ ?_ h
  · rw [position_zero]
    exact pointer_load hload
  · intro k m₁ m₂ hafter hpointer hstep
    obtain ⟨op, hgoes⟩ := Machine.exists_goesOn hstep
    rw [hgoes.tape.pointer_eq, hpointer, position_succ hafter hgoes.due.1, Int64.ofInt_add]

theorem inRange_load (hload : p.load = .ok tape) (hstart : p.pointerStart < p.memorySize) :
    tape.InRange := by
  have hpointer := pointer_load hload
  obtain ⟨hroom, rfl⟩ := load_eq_ok_iff.1 hload
  have hlt : p.pointerStart.toNat < p.memorySize.toNat := UInt64.lt_iff_toNat_lt.1 hstart
  have hword : (p.pointerStart.toNat : Int) % UInt64.size = p.pointerStart.toNat :=
    Int.emod_eq_of_lt (by omega) (Int.ofNat_lt.2 p.pointerStart.toNat_lt)
  rw [show p.pointerStart.toInt64 = _ from hpointer, Tape.inRange_ofInt_iff (by simpa using hroom),
    hword, Array.size_replicate]
  exact Int.ofNat_lt.2 hlt

/-- The pointer of a checked run is always at a cell. -/
theorem inRange_after? (hcheck : p.boundsCheck = true) (htape : tape.InRange)
    (h : Machine.after? p limit k { tape, streams } = some m) : m.tape.InRange := by
  refine Machine.after?_invariant (P := fun _ m => m.tape.InRange) htape ?_ h
  intro k m₁ m₂ _ hrange hstep
  obtain ⟨op, hgoes⟩ := Machine.exists_goesOn hstep
  cases hmove : op.isMove with
  | true => exact hgoes.inRange hmove hcheck
  | false => exact (hgoes.tape.inRange_iff hmove).2 hrange

/-- The position of a checked run is, modulo the number of words, the number of a cell, and this is
    where the pointer is. -/
theorem toInt_pointer_after? (hload : p.load = .ok tape) (hcheck : p.boundsCheck = true)
    (hstart : p.pointerStart < p.memorySize)
    (h : Machine.after? p limit k { tape, streams } = some m) :
    m.tape.pointer.toInt = p.position limit { tape, streams } k % UInt64.size := by
  have hrange := inRange_after? hcheck (inRange_load hload hstart) h
  have hpointer := pointer_after? hload h
  have htape : m.tape
      = { cells := m.tape.cells, pointer := Int64.ofInt (p.position limit { tape, streams } k) } := by
    rw [← hpointer]
  rw [htape] at hrange
  rw [hpointer]
  exact Tape.toInt_ofInt_of_inRange hrange

/-- If no instruction moves too far, the position never leaves the memory. -/
theorem position_mem (hload : p.load = .ok tape) (hcheck : p.boundsCheck = true)
    (hstart : p.pointerStart < p.memorySize)
    (hcounts : ∀ op ∈ p.ops, op.displacement.natAbs ≤ UInt64.size - p.memorySize.toNat)
    (h : Machine.after? p limit k { tape, streams } = some m) :
    0 ≤ p.position limit { tape, streams } k ∧
      p.position limit { tape, streams } k < p.memorySize.toNat := by
  obtain ⟨hroom, -⟩ := load_eq_ok_iff.1 hload
  have hsize := size_cells_load hload
  refine Machine.after?_invariant
    (P := fun k _ => 0 ≤ p.position limit { tape, streams } k ∧
      p.position limit { tape, streams } k < p.memorySize.toNat) ?_ ?_ h
  · rw [position_zero]
    exact ⟨by omega, Int.ofNat_lt.2 (UInt64.lt_iff_toNat_lt.1 hstart)⟩
  · intro k m₁ m₂ hafter hinside hstep
    obtain ⟨op, hgoes⟩ := Machine.exists_goesOn hstep
    have hafter' := Machine.after?_succ_iff.2 ⟨m₁, hafter, hstep⟩
    have hcells := (Machine.Sound.of_after? rfl rfl hafter').size.trans hsize
    have hrange := inRange_after? hcheck (inRange_load hload hstart) hafter'
    have hpointer := toInt_pointer_after? hload hcheck hstart hafter'
    rw [position_succ hafter hgoes.due.1] at hpointer ⊢
    -- the pointer says where the position is modulo the number of words
    refine (emod_size_lt_iff hinside.1 hinside.2 hroom ?_).1 ?_
    · exact hcounts op (Array.mem_of_getElem? hgoes.due.1)
    · rw [← hpointer, ← hcells]
      exact hrange.2

/-- In a checked run that starts in the memory, the pointer is at the position modulo the number of
    words, and a move goes on exactly if, modulo that number, it leads to a cell. If no instruction
    moves further than the complement of the memory size, then this holds of the positions
    themselves. -/
theorem checked_moves_modulo_words (hload : p.load = .ok tape) (hcheck : p.boundsCheck = true)
    (hstart : p.pointerStart < p.memorySize)
    (hafter : Machine.after? p limit k { tape, streams } = some m) :
    (m.tape.pointer.toInt = p.position limit { tape, streams } k % UInt64.size ∧
      ∀ op, m.Due p limit op → op.isMove = true →
        m.MovesTo p limit (p.position limit { tape, streams } k + op.displacement)
          ((p.position limit { tape, streams } k + op.displacement) % UInt64.size
            < p.memorySize.toNat)) ∧
    ((∀ op ∈ p.ops, op.displacement.natAbs ≤ UInt64.size - p.memorySize.toNat) →
      m.tape.pointer.toInt = p.position limit { tape, streams } k ∧
      ∀ op, m.Due p limit op → op.isMove = true →
        m.MovesTo p limit (p.position limit { tape, streams } k + op.displacement)
          (0 ≤ p.position limit { tape, streams } k + op.displacement ∧
            p.position limit { tape, streams } k + op.displacement < p.memorySize.toNat)) := by
  obtain ⟨hroom, -⟩ := load_eq_ok_iff.1 hload
  have hsize := size_cells_load hload
  have hcells := (Machine.Sound.of_after? rfl rfl hafter).size.trans hsize
  have hpointer := toInt_pointer_after? hload hcheck hstart hafter
  have hmoves : ∀ op, m.Due p limit op → op.isMove = true →
      m.MovesTo p limit (p.position limit { tape, streams } k + op.displacement)
        ((p.position limit { tape, streams } k + op.displacement) % UInt64.size
          < p.memorySize.toNat) :=
    fun op hdue hmove => hdue.movesTo hmove hcheck hcells hroom (pointer_after? hload hafter)
  refine ⟨⟨hpointer, hmoves⟩, ?_⟩
  intro hcounts
  obtain ⟨hlow, hhigh⟩ := position_mem hload hcheck hstart hcounts hafter
  have hlimit : Tape.cellLimit < UInt64.size := by decide
  refine ⟨hpointer.trans (Int.emod_eq_of_lt hlow (by omega)), ?_⟩
  intro op hdue hmove
  refine (hmoves op hdue hmove).congr (emod_size_lt_iff hlow hhigh hroom ?_)
  exact hcounts op (Array.mem_of_getElem? hdue.1)

/-- Of two moves, the first stays in the three cells and the second, by the largest distance that is
    told apart, does not. -/
theorem checked_moves_modulo_words_farthest :
    ∃ m, Machine.after? ⟨3, 0, true, #[.moveRight 2, .moveRight 18446744073709551613]⟩ none 1
        { tape := { cells := #[0, 0, 0], pointer := 0 }, streams := { input := [] } } = some m ∧
      m.tape.pointer.toInt = 2 ∧
      ∃ m', m.step ⟨3, 0, true, #[.moveRight 2, .moveRight 18446744073709551613]⟩ none
        = .done (.error (.pointerOutOfBounds (-1) 3 1)) m' := by
  have hload : (⟨3, 0, true, #[.moveRight 2, .moveRight 18446744073709551613]⟩ : Program).load
      = .ok { cells := #[0, 0, 0], pointer := 0 } := load_eq_ok_iff.2 ⟨by decide, by decide⟩
  have hafter : Machine.after? ⟨3, 0, true, #[.moveRight 2, .moveRight 18446744073709551613]⟩
      none 1 { tape := { cells := #[0, 0, 0], pointer := 0 }, streams := { input := [] } }
      = some ⟨{ cells := #[0, 0, 0], pointer := 2 }, { input := [] }, 1, 1⟩ := rfl
  have hexact := (checked_moves_modulo_words hload rfl (by decide) hafter).2 (by decide)
  refine ⟨_, hafter, ?_⟩
  exact ⟨hexact.1, (hexact.2 _ ⟨rfl, rfl⟩ rfl).2 (by decide)⟩

/-- From the second of three cells, a move to the right over all words but one leads to the first
    cell. The position is far outside the memory, and the checked run goes on to its end. -/
theorem checked_move_wraps_around :
    (⟨3, 1, true, #[.moveRight 18446744073709551615]⟩ : Program).load
      = .ok { cells := #[0, 0, 0], pointer := 1 } ∧
    (⟨3, 1, true, #[.moveRight 18446744073709551615]⟩ : Program).position none
      { tape := { cells := #[0, 0, 0], pointer := 1 }, streams := { input := [] } } 1
      = 18446744073709551616 ∧
    ∃ r, (⟨3, 1, true, #[.moveRight 18446744073709551615]⟩ : Program).run none 2 .empty
        { input := [] } = some r ∧
      r.outcome = .ok () ∧ r.tape.pointer = 0 :=
  ⟨load_eq_ok_iff.2 ⟨by decide, by decide⟩, by decide, _, rfl, rfl, rfl⟩

end Program

end Brainfuck
