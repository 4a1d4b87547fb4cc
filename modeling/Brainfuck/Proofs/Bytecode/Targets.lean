import Mathlib.Algebra.Group.Int.Defs
import Mathlib.Algebra.Group.Nat.Defs
import Brainfuck.Proofs.Bytecode.Listing
import Brainfuck.Proofs.Machine.Safety

set_option autoImplicit false

/-! # Listings and the machine agree on jumps

A listing and the machine compute the target of a jump each in its own way. The machine adds the
distance to the place of the jump as integers, and refuses a target that is neither a place in the
program nor right behind it. A listing wraps the sum around to a 64-bit word, for the marks as well
as for the target it shows. Since a program has fewer than 2^63 instructions and a distance has 32
bits, a sum that wraps around is far behind the last instruction (`Op.targetWord_cases`). So exactly
the places are marked to which the machine can jump. -/

namespace Brainfuck

/-! ## What the machine does with a jump -/

namespace Machine

/-- Taking the jump over `offset` at `ip`, the machine goes on at `target`. -/
def JumpsTo (m : Machine) (size ip : Nat) (offset : Int32) (target : Nat) : Prop :=
  { m with ip }.jump size offset = .next { m with ip := target }

/-- Taking the jump over `offset` at `ip`, the machine reports `target` as outside the program. -/
def RefusesJump (m : Machine) (size ip : Nat) (offset : Int32) (target : Int) : Prop :=
  { m with ip }.jump size offset = { m with ip }.fail (.badJump ip target)

variable {m : Machine} {size ip : Nat} {offset : Int32}

theorem jumpsTo_iff {target : Nat} :
    m.JumpsTo size ip offset target ↔ (target : Int) = ip + offset.toInt ∧ target ≤ size := by
  unfold JumpsTo jump
  by_cases hinside : 0 ≤ ip + offset.toInt ∧ ip + offset.toInt ≤ size
  · simp only [if_pos hinside, Step.next.injEq, mk.injEq, true_and, and_true]
    omega
  · simp only [if_neg hinside, fail, reduceCtorEq, false_iff]
    omega

theorem refusesJump_of_out (hout : ip + offset.toInt < 0 ∨ size < ip + offset.toInt) :
    m.RefusesJump size ip offset (ip + offset.toInt) :=
  jump_of_out (m := { m with ip }) hout

end Machine

/-! ## What the listing makes of a jump -/

/-- The instruction at `ip` is a jump over `offset`. -/
def JumpAt (code : List Op) (ip : Nat) (offset : Int32) : Prop :=
  ∃ op, code[ip]? = some op ∧ op.offset? = some offset

theorem JumpAt.lt_length {code : List Op} {ip : Nat} {offset : Int32} (h : JumpAt code ip offset) :
    ip < code.length := by
  obtain ⟨op, hop, -⟩ := h
  exact (List.getElem?_eq_some_iff.1 hop).1

/-- The word is the target, unless the target is negative; then it is a place behind the code. -/
theorem Op.targetWord_cases {ip size : Nat} (hip : ip < size) (hsize : size < 2 ^ 63)
    (offset : Int32) :
    (targetWord ip offset : Int) = ip + offset.toInt ∨
    (ip + offset.toInt < 0 ∧ size < targetWord ip offset ∧
      (targetWord ip offset : Int) = (ip + offset.toInt) % 2 ^ 64) := by
  have hlow := offset.le_toInt
  have hhigh := offset.toInt_lt
  unfold targetWord
  simp only [UInt64.size]
  omega

/-- The machine goes on at the word, or reports the target that the word stands for. -/
theorem Machine.jumpsTo_or_refusesJump {ip size : Nat} (hip : ip < size) (hsize : size < 2 ^ 63)
    (offset : Int32) (m : Machine) :
    (m.JumpsTo size ip offset (Op.targetWord ip offset) ∧ Op.targetWord ip offset ≤ size) ∨
    ∃ target, m.RefusesJump size ip offset target ∧
      (Op.targetWord ip offset : Int) = target % 2 ^ 64 ∧ size < Op.targetWord ip offset := by
  by_cases hinside : 0 ≤ ip + offset.toInt ∧ ip + offset.toInt ≤ size
  · left
    rw [jumpsTo_iff]
    rcases Op.targetWord_cases hip hsize offset with hword | ⟨hneg, -⟩ <;> omega
  · refine .inr ⟨_, refusesJump_of_out (by omega), ?_⟩
    rcases Op.targetWord_cases hip hsize offset with hword | ⟨-, hlt, hword⟩
    · have hhigh := offset.toInt_lt
      omega
    · exact ⟨hword, hlt⟩

namespace Listing

theorem mem_targets {code : List Op} {target : Nat} :
    target ∈ targets code ↔
      ∃ ip offset, JumpAt code ip offset ∧ Op.targetWord ip offset = target := by
  simp only [targets, List.mem_filterMap, List.mem_zipIdx_iff_getElem?, Option.map_eq_some_iff,
    Prod.exists, JumpAt]
  constructor
  · rintro ⟨op, ip, hop, offset, hoffset, htarget⟩
    exact ⟨ip, offset, ⟨op, hop, hoffset⟩, htarget⟩
  · rintro ⟨ip, offset, ⟨op, hop, hoffset⟩, htarget⟩
    exact ⟨op, ip, hop, offset, hoffset, htarget⟩

/-- A place is marked if and only if the machine can jump there. -/
theorem contains_targets_iff {code : List Op} (hsize : code.length < 2 ^ 63) (m : Machine) {i : Nat}
    (hi : i < code.length) :
    (targets code).contains i = true ↔
      ∃ ip offset, JumpAt code ip offset ∧ m.JumpsTo code.length ip offset i := by
  rw [List.contains_iff_mem, mem_targets]
  refine exists_congr fun ip => exists_congr fun offset => and_congr_right fun hjump => ?_
  rw [Machine.jumpsTo_iff]
  rcases Op.targetWord_cases hjump.lt_length hsize offset with hword | ⟨hneg, hlt, -⟩ <;> omega

/-- The text shows `target` behind the only arrow to the right. -/
def ShowsTarget (text : String) (target : Nat) : Prop :=
  ∃ front, '→' ∉ front.toList ∧ text = front ++ "(→ " ++ Text.zeroPadded 4 target ++ ")"

/-- A text shows one target at most. -/
theorem ShowsTarget.unique {text : String} {target target' : Nat} (h : ShowsTarget text target)
    (h' : ShowsTarget text target') : target = target' := by
  have hlist : ∀ (front : String) (target : Nat),
      (front ++ "(→ " ++ Text.zeroPadded 4 target ++ ")").toList = (front.toList ++ ['(']) ++
        '→' :: ' ' :: ((Text.zeroPadded 4 target).toList ++ [')']) := by
    intro front target
    simp
  have harrow : ∀ {front : String}, '→' ∉ front.toList → '→' ∉ front.toList ++ ['('] := by
    intro front hfront
    simpa using hfront
  obtain ⟨front, hfront, rfl⟩ := h
  obtain ⟨front', hfront', htext⟩ := h'
  rw [← String.toList_inj, hlist, hlist] at htext
  have hrest := (Text.eq_of_append_cons (harrow hfront) (harrow hfront') htext).2
  have hdigits := List.append_cancel_right (List.cons.inj hrest).2
  rw [← Text.ofDigitChars_zeroPadded 4 target, hdigits, Text.ofDigitChars_zeroPadded]

theorem showsTarget_listingText {op : Op} {offset : Int32} (h : op.offset? = some offset)
    (ip : Nat) : ShowsTarget (op.listingText ip) (Op.targetWord ip offset) := by
  have hoperand : op.operand ip = Op.jumpOperand ip offset ∧ '→' ∉ op.nameColumn.toList := by
    cases op <;> simp_all [Op.offset?, Op.operand, Op.nameColumn]
  have hsigned : '→' ∉ (Text.signed offset.toInt).toList :=
    Text.not_mem_signed (by decide) (by decide) (by decide)
  refine ⟨op.nameColumn ++ Text.signed offset.toInt ++
    (if offset.toInt < 0 then " ↑ " else " ↓ "), ?_, ?_⟩
  · split <;> simp [hoperand.2, hsigned]
  · rw [Op.listingText_eq, hoperand.1, Op.jumpOperand]
    apply String.toList_inj.1
    split <;> simp

/-! ## The agreement -/

/-- In the listing of a list of instructions, each of them has one line of its own, in their order.
    The line at `i` is marked, with a rule above it, if and only if the machine can jump to `i`. The
    target that is shown for a jump is where the machine goes on; or the machine refuses the jump,
    and what is shown is the target it reports, as a 64-bit word, which then is the place of no
    line. -/
theorem ops_agree_with_jumps {code : List Op} (hsize : code.length < 2 ^ 63) (m : Machine) :
    ∃ marked : Nat → Bool,
      Text.lines (ops code) = entries marked code ++ [""] ∧
      (Text.lines (ops code)).filter isInstruction =
        (code.zipIdx.map fun (op, ip) => instructionLine (marked ip) ip op) ∧
      (∀ i < code.length, marked i = true ↔
        ∃ ip offset, JumpAt code ip offset ∧ m.JumpsTo code.length ip offset i) ∧
      ∀ ip op offset, code[ip]? = some op → op.offset? = some offset →
        ∃ shown, ShowsTarget (op.listingText ip) shown ∧
          (∀ other, ShowsTarget (op.listingText ip) other → other = shown) ∧
          ((m.JumpsTo code.length ip offset shown ∧ shown ≤ code.length) ∨
           ∃ target, m.RefusesJump code.length ip offset target ∧
             (shown : Int) = target % 2 ^ 64 ∧ code.length < shown) := by
  refine ⟨(targets code).contains, lines_ops code, ?_, ?_, ?_⟩
  · have hempty : isInstruction "" = false := by decide
    rw [lines_ops, List.filter_append, filter_isInstruction_entries]
    simp [hempty]
  · exact fun i hi => contains_targets_iff hsize m hi
  · intro ip op offset hop hoffset
    have hip := JumpAt.lt_length ⟨op, hop, hoffset⟩
    have hshows := showsTarget_listingText hoffset ip
    exact ⟨Op.targetWord ip offset, hshows, fun other hother => hother.unique hshows,
      m.jumpsTo_or_refusesJump hip hsize offset⟩

/-- Two jumps: the first leads to the second, which leads to the place before the first. -/
theorem ops_agree_with_jumps_outside :
    ([.jump 1, .jump (-2)] : List Op).length < 2 ^ 63 ∧
    ∃ marked : Nat → Bool, Text.lines (ops [.jump 1, .jump (-2)]) =
        entries marked [.jump 1, .jump (-2)] ++ [""] ∧
      marked 0 = false ∧ marked 1 = true ∧
      ∃ shown, ShowsTarget (Op.listingText 1 (.jump (-2))) shown ∧ 2 < shown := by
  have hsize : ([.jump 1, .jump (-2)] : List Op).length < 2 ^ 63 := by decide
  obtain ⟨marked, hlines, -, hmarked, hjumps⟩ :=
    ops_agree_with_jumps hsize { tape := ⟨#[], 0⟩, streams := { input := [] } }
  refine ⟨hsize, marked, hlines, ?_, ?_, ?_⟩
  · rw [← Bool.not_eq_true, hmarked 0 (by decide)]
    rintro ⟨ip, offset, ⟨op, hop, hoffset⟩, hjump⟩
    have hplace := (Machine.jumpsTo_iff.1 hjump).1
    rcases ip with - | - | ip
    · obtain rfl := Option.some.inj hop
      obtain rfl := Option.some.inj hoffset
      exact absurd hplace (by decide)
    · obtain rfl := Option.some.inj hop
      obtain rfl := Option.some.inj hoffset
      exact absurd hplace (by decide)
    · simp at hop
  · rw [hmarked 1 (by decide)]
    exact ⟨0, 1, ⟨.jump 1, rfl, rfl⟩, rfl⟩
  · obtain ⟨shown, hshows, -, ⟨hjump, -⟩ | ⟨-, -, -, hlt⟩⟩ := hjumps 1 (.jump (-2)) (-2) rfl rfl
    · have hplace := (Machine.jumpsTo_iff.1 hjump).1
      have hoffset : (-2 : Int32).toInt = -2 := by decide
      omega
    · exact ⟨shown, hshows, hlt⟩

end Listing

end Brainfuck
