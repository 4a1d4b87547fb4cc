import Brainfuck.Artifact.Format

set_option autoImplicit false

/-! # Reading back an artifact

What was written is read back, value by value: a reader takes exactly the bytes of a value off the
front, whatever stands behind them (`Reader.Reads`). Values that follow each other are read back in
their order, so that the programs of an artifact come down to numbers and single bytes. The line in
front of the mark is found whatever it holds, and the bytes behind the payload are never looked
at. -/

namespace Brainfuck

/-! ## Readers and the bytes they take -/

namespace Reader

variable {α β : Type}

/-- The reader takes exactly these bytes off the front, and gives the value. -/
def Reads (r : Reader α) (bytes : List UInt8) (a : α) : Prop :=
  ∀ rest, r (bytes ++ rest) = .ok (a, rest)

theorem Reads.pure (a : α) : Reads (pure a) [] a := fun _ => rfl

theorem Reads.bind {r : Reader α} {f : α → Reader β} {bytes bytes' : List UInt8} {a : α} {b : β}
    (h : Reads r bytes a) (h' : Reads (f a) bytes' b) : Reads (r >>= f) (bytes ++ bytes') b := by
  intro rest
  rw [List.append_assoc]
  show (r (bytes ++ (bytes' ++ rest)) >>= fun x => f x.1 x.2) = _
  rw [h]
  exact h' rest

/-- What is made of a value takes no more bytes. -/
theorem Reads.map {r : Reader α} {bytes : List UInt8} {a : α} (h : Reads r bytes a) (f : α → β) :
    Reads (do return f (← r)) bytes (f a) := by
  rw [← List.append_nil bytes]
  exact h.bind (.pure (f a))

theorem reads_byte (b : UInt8) : Reads byte [b] b := fun _ => rfl

end Reader

open Reader (Reads)

/-! ## Numbers -/

namespace Varint

theorem bound_word64 : word64.bound = UInt64.size := by decide

theorem bound_word32 : word32.bound = UInt32.size := by decide

end Varint

namespace Payload

theorem reads_varint64 {n : Nat} (h : n < UInt64.size) :
    Reads Varint.word64.read (Varint.word64.write n) n := by
  intro rest
  rw [← Varint.bound_word64] at h
  exact Varint.decode_encode (by decide) rest _ n h

theorem reads_varint32 {n : Nat} (h : n < UInt32.size) :
    Reads Varint.word32.read (Varint.word32.write n) n := by
  intro rest
  rw [← Varint.bound_word32] at h
  exact Varint.decode_encode (by decide) rest _ n h

theorem reads_word (n : UInt64) : Reads readWord (writeWord n) n := by
  have h := (reads_varint64 n.toNat_lt).map UInt64.ofNat
  rwa [UInt64.ofNat_toNat] at h

theorem reads_offset (n : Int32) : Reads readOffset (writeOffset n) n := by
  -- folding doubles the number and takes the sign away
  have hsmall : Zigzag.fold n.toInt < UInt32.size := by
    have hlow := n.le_toInt
    have hhigh := n.toInt_lt
    unfold Zigzag.fold
    split <;> simp only [UInt32.size] <;> omega
  have h := (reads_varint32 hsmall).map fun m => Int32.ofInt (Zigzag.unfold m)
  rwa [Zigzag.unfold_fold, Int32.ofInt_toInt] at h

theorem reads_bool (b : Bool) : Reads Reader.bool (writeBool b) b := by
  cases b <;> exact fun _ => rfl

/-! ## Instructions and programs -/

theorem reads_op (op : Op) : Reads readOp (writeOp op) op := by
  have hvariant : variant op ≤ 8 := by cases op <;> simp [variant]
  have hsmall : variant op < UInt32.size := Nat.lt_of_le_of_lt hvariant (by decide)
  -- the kind says how the argument is read
  refine (reads_varint32 hsmall).bind ?_
  cases op with
  | addCell n => exact (Reader.reads_byte n).map Op.addCell
  | subCell n => exact (Reader.reads_byte n).map Op.subCell
  | moveRight n => exact (reads_word n).map Op.moveRight
  | moveLeft n => exact (reads_word n).map Op.moveLeft
  | write => exact .pure Op.write
  | read => exact .pure Op.read
  | jump offset => exact (reads_offset offset).map Op.jump
  | jumpIfZero offset => exact (reads_offset offset).map Op.jumpIfZero
  | halt => exact .pure Op.halt

theorem reads_ops (before : Array Op) (ops : List Op) :
    Reads (readOps before ops.length) (ops.flatMap writeOp) (before ++ ops.toArray) := by
  induction ops generalizing before with
  | nil =>
      rw [Array.append_empty]
      exact .pure before
  | cons op ops ih =>
      have hpush : before ++ (op :: ops).toArray = before.push op ++ ops.toArray := by simp
      rw [hpush]
      exact Reads.bind (f := fun op => readOps (before.push op) ops.length) (reads_op op)
        (ih (before.push op))

/-- A program is read back if the number of its instructions is a word. -/
theorem reads_program {p : Program} (h : p.ops.size < UInt64.size) : Reads read (write p) p := by
  have hops := reads_ops #[] p.ops.toList
  rw [Array.length_toList, Array.empty_append, Array.toArray_toList] at hops
  unfold write
  simp only [List.append_assoc]
  refine (reads_word p.memorySize).bind ((reads_word p.pointerStart).bind
    ((reads_bool p.boundsCheck).bind ((reads_varint64 h).bind ?_)))
  exact hops.map fun ops => { p with ops }

end Payload

/-! ## The line in front -/

namespace Artifact

/-- What may stand in front of the mark: nothing, or one line that starts with `#!`. -/
def IsLauncher (bytes : List UInt8) : Prop :=
  bytes = [] ∨ ∃ line, newline ∉ line ∧ bytes = launcherMark ++ line ++ [newline]

theorem isLauncher_launcher : IsLauncher launcher := by
  refine .inr ⟨(launcher.drop launcherMark.length).dropLast, ?_, ?_⟩ <;> decide

/-- There is no newline before the end of the line. -/
theorem ne_newline_of_mem {line : List UInt8} (h : newline ∉ line) :
    ∀ b ∈ launcherMark ++ line, (b != newline) = true := by
  intro b hb
  rw [bne_iff_ne]
  rintro rfl
  rcases List.mem_append.1 hb with hmark | hmem
  · exact absurd hmark (by decide)
  · exact h hmem

/-- The line ends at its first newline. -/
theorem dropLauncher_line {line : List UInt8} (h : newline ∉ line) (rest : List UInt8) :
    dropLauncher (launcherMark ++ line ++ newline :: rest) = .ok rest := by
  have hstart : launcherMark.isPrefixOf (launcherMark ++ line ++ newline :: rest) = true := rfl
  have hend : (launcherMark ++ line ++ newline :: rest).dropWhile (· != newline)
      = newline :: rest := by
    rw [List.dropWhile_append_of_pos (ne_newline_of_mem h)]
    rfl
  rw [dropLauncher, if_pos hstart, hend]

/-- Behind the launcher, the mark is what is found. -/
theorem dropLauncher_append {front : List UInt8} (h : IsLauncher front) (rest : List UInt8) :
    dropLauncher (front ++ (magic ++ rest)) = .ok (magic ++ rest) := by
  rcases h with rfl | ⟨line, hline, rfl⟩
  · rfl
  · rw [List.append_assoc _ [newline], List.singleton_append]
    exact dropLauncher_line hline _

theorem dropMagic_append (v : UInt8) (payload : List UInt8) :
    dropMagic (magic ++ v :: payload) = .ok (v, payload) := rfl

theorem decode_of_read_ok {bytes payload rest : List UInt8} {p : Program}
    (hbody : dropLauncher bytes = .ok (magic ++ version :: payload))
    (hread : Payload.read payload = .ok (p, rest)) : decode bytes = .ok p := by
  simp only [decode, hbody, bind, Except.bind, dropMagic_append, hread]
  rfl

/-- A body behind any launcher is read by its payload. -/
theorem decode_of_read {front payload rest : List UInt8} {p : Program} (h : IsLauncher front)
    (hread : Payload.read payload = .ok (p, rest)) :
    decode (front ++ (magic ++ version :: payload)) = .ok p :=
  decode_of_read_ok (dropLauncher_append h _) hread

/-! ## The round trip -/

theorem encode_eq_launcher_append (p : Program) :
    encode p = launcher ++ (magic ++ version :: Payload.write p) := by
  rw [encode, List.append_assoc]

/-- What is written for a program is read back as the program. -/
theorem decode_encode {p : Program} (hops : p.ops.size < UInt64.size) :
    decode (encode p) = .ok p := by
  have hread := Payload.reads_program hops []
  rw [List.append_nil] at hread
  rw [encode_eq_launcher_append]
  exact decode_of_read isLauncher_launcher hread

/-- An artifact is a launcher line and a body. The body alone decides which program is read back:
    the line may be any other or none, and any bytes may follow. (The number of instructions is
    written as a word, and so has to be one, as it is for any list in memory.) -/
theorem decode_relaunched {p : Program} (hops : p.ops.size < UInt64.size) :
    ∃ body, encode p = launcher ++ body ∧
      (∀ front trailer, IsLauncher front → decode (front ++ body ++ trailer) = .ok p) ∧
      decode (encode p) = .ok p := by
  have hany : ∀ front trailer, IsLauncher front →
      decode (front ++ (magic ++ version :: Payload.write p) ++ trailer) = .ok p := by
    intro front trailer hfront
    have hread := decode_of_read hfront (Payload.reads_program hops trailer)
    simpa only [List.append_assoc, List.cons_append] using hread
  exact ⟨magic ++ version :: Payload.write p, encode_eq_launcher_append p, hany,
    decode_encode hops⟩

/-- The largest words and the lowest offset, behind the shortest launcher line. -/
theorem decode_relaunched_extremes :
    ∃ body, encode ⟨18446744073709551615, 9223372036854775808, true,
        #[.moveLeft 18446744073709551615, .jump (-2147483648)]⟩ = launcher ++ body ∧
      decode ([0x23, 0x21, 0x0a] ++ body ++ [0xff])
        = .ok ⟨18446744073709551615, 9223372036854775808, true,
          #[.moveLeft 18446744073709551615, .jump (-2147483648)]⟩ := by
  have hsize : (#[.moveLeft 18446744073709551615, .jump (-2147483648)] : Array Op).size
      < UInt64.size := by decide
  obtain ⟨body, hbody, hany, -⟩ := decode_relaunched
    (p := ⟨18446744073709551615, 9223372036854775808, true, _⟩) hsize
  exact ⟨body, hbody, hany _ _ (.inr ⟨[], by decide, rfl⟩)⟩

end Artifact

end Brainfuck
