import Brainfuck.Machine.Tape
import Mathlib.Algebra.Group.Nat.Defs

set_option autoImplicit false

/-! # Tapes without indices

An index into a tape is a number below its length, and so belongs to one tape only. To compare tapes
before and after a change, the operations are restated without indices: what stands under the
pointer (`cell?`), the tape with another value there (`modify?`), and the tape with the pointer
somewhere else (`shift`). -/

namespace Brainfuck

namespace Tape

/-- The pointer is at a cell. -/
def InRange (t : Tape) : Prop :=
  0 ≤ t.pointer.toInt ∧ t.pointer.toInt < t.cells.size

instance (t : Tape) : Decidable t.InRange := inferInstanceAs (Decidable (_ ∧ _))

/-- The value under the pointer. -/
def cell? (t : Tape) : Option UInt8 := t.index?.map t.get

/-- Replaces the value under the pointer. -/
def modify? (t : Tape) (f : UInt8 → UInt8) : Option Tape :=
  t.index?.map fun i => t.set i (f (t.get i))

/-- Moves the pointer by a signed distance. -/
def shift (t : Tape) (d : Int) : Tape :=
  { t with pointer := t.pointer + Int64.ofInt d }

/-! ## The cell under the pointer -/

theorem index?_eq_none_iff (t : Tape) : t.index? = none ↔ ¬ t.InRange := by
  unfold index? InRange
  split <;> simp <;> omega

theorem isNone_index?_iff (t : Tape) : t.index?.isNone = true ↔ ¬ t.InRange := by
  rw [Option.isNone_iff_eq_none, index?_eq_none_iff]

theorem InRange.index?_eq {t : Tape} (h : t.InRange) :
    ∃ hlt : t.pointer.toInt.toNat < t.cells.size,
      t.index? = some ⟨t.pointer.toInt.toNat, hlt⟩ := by
  obtain ⟨hlow, hhigh⟩ := h
  have hlt : t.pointer.toInt.toNat < t.cells.size := by omega
  exact ⟨hlt, dif_pos ⟨hlow, hlt⟩⟩

theorem cell?_eq_none_iff (t : Tape) : t.cell? = none ↔ t.index? = none := by
  simp [cell?]

theorem modify?_eq_none_iff (t : Tape) (f : UInt8 → UInt8) :
    t.modify? f = none ↔ t.index? = none := by
  simp [modify?]

theorem pointer_modify? {t t' : Tape} {f : UInt8 → UInt8} (h : t.modify? f = some t') :
    t'.pointer = t.pointer := by
  obtain ⟨i, -, rfl⟩ := Option.map_eq_some_iff.1 h
  rfl

theorem size_cells_modify? {t t' : Tape} {f : UInt8 → UInt8} (h : t.modify? f = some t') :
    t'.cells.size = t.cells.size := by
  obtain ⟨i, -, rfl⟩ := Option.map_eq_some_iff.1 h
  exact size_cells_set t i _

theorem InRange.modify? {t t' : Tape} {f : UInt8 → UInt8} (ht : t.InRange)
    (h : t.modify? f = some t') : t'.InRange := by
  rw [InRange, pointer_modify? h, size_cells_modify? h]
  exact ht

theorem inRange_of_modify? {t t' : Tape} {f : UInt8 → UInt8} (h : t.modify? f = some t') :
    t.InRange := by
  by_cases hrange : t.InRange
  · exact hrange
  · rw [(modify?_eq_none_iff t f).2 ((index?_eq_none_iff t).2 hrange)] at h
    contradiction

theorem InRange.exists_modify? {t : Tape} (h : t.InRange) (f : UInt8 → UInt8) :
    ∃ t', t.modify? f = some t' := by
  obtain ⟨hlt, hindex⟩ := h.index?_eq
  exact ⟨_, by rw [Tape.modify?, hindex]; rfl⟩

theorem cell?_modify? {t t' : Tape} {f : UInt8 → UInt8} (h : t.modify? f = some t') :
    t'.cell? = t.cell?.map f := by
  have hrange := inRange_of_modify? h
  obtain ⟨hlt, hindex⟩ := hrange.index?_eq
  obtain ⟨hlt', hindex'⟩ := (hrange.modify? h).index?_eq
  rw [Tape.modify?, hindex, Option.map_some, Option.some.injEq] at h
  subst h
  simp only [cell?, hindex, hindex', Option.map_some]
  simp [set, get]

/-- A change leaves the other cells alone. -/
theorem getElem?_cells_modify? {t t' : Tape} {f : UInt8 → UInt8} (h : t.modify? f = some t')
    {i : Nat} (hi : t.pointer.toInt ≠ i) : t'.cells[i]? = t.cells[i]? := by
  obtain ⟨hlt, hindex⟩ := (inRange_of_modify? h).index?_eq
  have hne : t.pointer.toInt.toNat ≠ i := by
    have hnonneg := (inRange_of_modify? h).1
    omega
  rw [Tape.modify?, hindex, Option.map_some, Option.some.injEq] at h
  subst h
  exact Array.getElem?_set_ne hlt hne

/-- Two changes of the same cell are one change. -/
theorem modify?_modify? {t t' : Tape} {f : UInt8 → UInt8} (h : t.modify? f = some t')
    (g : UInt8 → UInt8) : t'.modify? g = t.modify? (fun b => g (f b)) := by
  have hrange := inRange_of_modify? h
  obtain ⟨hlt, hindex⟩ := hrange.index?_eq
  obtain ⟨hlt', hindex'⟩ := (hrange.modify? h).index?_eq
  rw [Tape.modify?, hindex, Option.map_some, Option.some.injEq] at h
  subst h
  simp only [Tape.modify?, hindex, hindex', Option.map_some]
  simp [set, get]

/-! ## Moves -/

theorem moveRight_ofNat (t : Tape) (n : Nat) : t.moveRight (UInt64.ofNat n) = t.shift n := by
  rw [moveRight, shift, UInt64.toInt64_ofNat', Int64.ofInt_eq_ofNat]

theorem moveLeft_ofNat (t : Tape) (n : Nat) : t.moveLeft (UInt64.ofNat n) = t.shift (-n) := by
  rw [moveLeft, shift, UInt64.toInt64_ofNat', Int64.ofInt_neg, Int64.ofInt_eq_ofNat,
    Int64.sub_eq_add_neg]

theorem moveRight_eq_shift (t : Tape) (n : UInt64) : t.moveRight n = t.shift n.toNat := by
  rw [← moveRight_ofNat, UInt64.ofNat_toNat]

theorem moveLeft_eq_shift (t : Tape) (n : UInt64) : t.moveLeft n = t.shift (-n.toNat) := by
  rw [← moveLeft_ofNat, UInt64.ofNat_toNat]

theorem shift_zero (t : Tape) : t.shift 0 = t := by
  simp [shift]

theorem shift_shift (t : Tape) (d e : Int) : (t.shift d).shift e = t.shift (d + e) := by
  simp only [shift, Int64.ofInt_add, Int64.add_assoc]

/-- A pointer in range stays what it is as a number as long as it moves by less than a quarter of
    all words, on a tape that has room. -/
theorem InRange.toInt_pointer_shift {t : Tape} (h : t.InRange) (hsize : t.cells.size < cellLimit)
    {d : Int} (hlow : -(cellLimit : Int) ≤ d) (hhigh : d ≤ cellLimit) :
    (t.shift d).pointer.toInt = t.pointer.toInt + d := by
  obtain ⟨hnonneg, hlt⟩ := h
  have hlimit : cellLimit = 4611686018427387904 := by decide
  have hd : (Int64.ofInt d).toInt = d := Int64.toInt_ofInt_of_le (by omega) (by omega)
  rw [shift, Int64.toInt_add, hd]
  exact Int.bmod_eq_of_le (by omega) (by omega)

end Tape

end Brainfuck
