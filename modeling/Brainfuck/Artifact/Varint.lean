import Brainfuck.Artifact.Reader

set_option autoImplicit false

/-! # Numbers of variable length

A number is written in groups of seven bits, the lowest group first, and every byte but the last
has its high bit set. Writing takes as few bytes as possible. Reading accepts longer forms too, up
to the number of bytes that the width needs at most; what the last of these may hold is bounded, so
that no number overflows the width. Signed numbers are written by folding the negative ones between
the others: 0, -1, 1, -2, 2, … -/

namespace Brainfuck

/-- The width of a number: how many bytes can be followed by another one, and the largest value of
    a byte that cannot. -/
structure VarintWidth where
  continuing : Nat
  lastMax : Nat
deriving DecidableEq, Repr

namespace Varint

/-- Numbers of 32 bits: four groups of seven bits and one of four. -/
def word32 : VarintWidth := { continuing := 4, lastMax := 15 }

/-- Numbers of 64 bits: nine groups of seven bits and one of one. -/
def word64 : VarintWidth := { continuing := 9, lastMax := 1 }

/-- The bytes of `n`, with at most `continuing` bytes before the last one. -/
def encode : (continuing n : Nat) → List UInt8
  | 0, n => [UInt8.ofNat n]
  | k + 1, n =>
    if n < 128 then [UInt8.ofNat n] else UInt8.ofNat (n % 128 + 128) :: encode k (n / 128)

/-- Reads a number of at most `continuing` bytes and a last one that is at most `lastMax`. -/
def decode (lastMax : Nat) : (continuing : Nat) → Reader Nat
  | 0 => do
    let b ← Reader.byte
    if b.toNat ≤ lastMax then return b.toNat else throw .badVarint
  | k + 1 => do
    let b ← Reader.byte
    if b.toNat < 128 then return b.toNat
    else return b.toNat - 128 + 128 * (← decode lastMax k)

/-- The first number that needs more than `continuing` bytes and a last one of at most `lastMax`. -/
def bound (lastMax : Nat) : (continuing : Nat) → Nat
  | 0 => lastMax + 1
  | k + 1 => 128 * bound lastMax k

end Varint

namespace VarintWidth

/-- The shortest form of a number. -/
def write (w : VarintWidth) (n : Nat) : List UInt8 := Varint.encode w.continuing n

/-- Reads a number in any form. -/
def read (w : VarintWidth) : Reader Nat := Varint.decode w.lastMax w.continuing

/-- The first number that is too large for the width. -/
def bound (w : VarintWidth) : Nat := Varint.bound w.lastMax w.continuing

end VarintWidth

/-! ## Reading back what was written -/

namespace Varint

theorem toNat_ofNat_of_lt {n : Nat} (h : n < 256) : (UInt8.ofNat n).toNat = n := by
  simp [Nat.mod_eq_of_lt h]

theorem decode_encode {lastMax : Nat} (hlast : lastMax < 128) (rest : List UInt8) :
    ∀ (k n : Nat), n < bound lastMax k →
      decode lastMax k (encode k n ++ rest) = .ok (n, rest)
  | 0, n, hn => by
    rw [bound] at hn
    have hle : n ≤ lastMax := by omega
    have hb := toNat_ofNat_of_lt (show n < 256 by omega)
    rw [encode, List.singleton_append]
    simp only [decode, bind, StateT.bind, Reader.byte_cons, Except.bind, hb, if_pos hle]
    rfl
  | k + 1, n, hn => by
    rw [bound] at hn
    by_cases hsmall : n < 128
    · have hb := toNat_ofNat_of_lt (show n < 256 by omega)
      rw [encode, if_pos hsmall, List.singleton_append]
      simp only [decode, bind, StateT.bind, Reader.byte_cons, Except.bind, hb, if_pos hsmall]
      rfl
    · have hb := toNat_ofNat_of_lt (show n % 128 + 128 < 256 by omega)
      have hdiv : n / 128 < bound lastMax k := Nat.div_lt_of_lt_mul hn
      rw [encode, if_neg hsmall, List.cons_append]
      simp only [decode, bind, StateT.bind, Reader.byte_cons, Except.bind, hb,
        if_neg (show ¬ n % 128 + 128 < 128 by omega), decode_encode hlast rest k (n / 128) hdiv]
      show Except.ok (n % 128 + 128 - 128 + 128 * (n / 128), rest) = _
      congr 2
      omega

end Varint

/-! ## Signed numbers -/

namespace Zigzag

/-- Folds the negative numbers between the others. -/
def fold (n : Int) : Nat :=
  if 0 ≤ n then 2 * n.toNat else 2 * (-n).toNat - 1

/-- Takes the folding back. -/
def unfold (m : Nat) : Int :=
  if m % 2 = 0 then (m / 2 : Nat) else -(m / 2 : Nat) - 1

theorem unfold_fold (n : Int) : unfold (fold n) = n := by
  unfold fold unfold
  split <;> split <;> omega

theorem fold_unfold (m : Nat) : fold (unfold m) = m := by
  unfold fold unfold
  split <;> split <;> omega

end Zigzag

end Brainfuck
