import Brainfuck.Proofs.Bytecode.Diagnosis

set_option autoImplicit false

/-! # Jumps pair up as brackets nest

The generator works with labels, but what it puts down for balanced runs is the code of their tree,
and in this code every jump belongs to a loop: the head of the loop stands for its opening bracket
and leads behind the back jump, which stands for the partner of this bracket and leads to the head
(`Piece.LoopJump`).

Partners are found in the pieces by counting alone (`Piece.Encloses`). The tree knows its loops by
its shape (`LoopTree.HasLoop`), and that both mean the same loops is a matter of how balanced
sequences can overlap. -/

namespace Brainfuck

/-- Behind a balanced sequence a closing bracket is one too many. -/
theorem Bracket.Balanced.not_append_closing {bs cs : List Bracket} (h : Balanced bs) :
    ¬ Balanced (bs ++ .closing :: cs) := by
  intro hlonger
  have htake := hlonger.closes_take_le (bs.length + 1)
  have htotal := h.2
  rw [List.take_length_add_append, List.take_succ_cons, List.take_zero] at htake
  simp only [opens_append, closes_append, opens_cons_closing, closes_cons_closing, opens_nil,
    closes_nil] at htake
  omega

/-! ## Loops among pieces -/

namespace Piece

/-- How many instructions some pieces stand for. -/
def codeLength (ps : List (Piece (Action × Nat))) : Nat := (ps.map Piece.instructions).sum

/-- Behind the pieces `before` stands an opening bracket, and `inner` is all there is between this
    bracket and its partner. -/
def Encloses {α : Type} (ps before inner : List (Piece α)) : Prop :=
  Bracket.Balanced (inner.filterMap bracket?) ∧
    ∃ after, ps = before ++ .opening :: (inner ++ .closing :: after)

/-- The instruction at `ip` is one of the two jumps of a loop: the head in the place of the opening
    bracket, or the back jump in the place of its partner. Each leads to the other one, and the head
    right behind it. -/
inductive LoopJump (ps : List (Piece (Action × Nat))) (ip : Nat) : Op → Prop
  | head {before inner : List (Piece (Action × Nat))} {offset : Int32}
      (hloop : Encloses ps before inner) (hip : ip = codeLength before)
      (hoffset : offset.toInt = codeLength inner + 2) : LoopJump ps ip (.jumpIfZero offset)
  | back {before inner : List (Piece (Action × Nat))} {offset : Int32}
      (hloop : Encloses ps before inner) (hip : ip = codeLength before + codeLength inner + 1)
      (hoffset : offset.toInt = -(codeLength inner + 1)) : LoopJump ps ip (.jump offset)

@[simp] theorem codeLength_nil : codeLength [] = 0 := rfl

@[simp] theorem codeLength_cons (p : Piece (Action × Nat)) (ps : List (Piece (Action × Nat))) :
    codeLength (p :: ps) = p.instructions + codeLength ps := by
  simp [codeLength]

@[simp] theorem codeLength_append (ps qs : List (Piece (Action × Nat))) :
    codeLength (ps ++ qs) = codeLength ps + codeLength qs := by
  simp [codeLength]

@[simp] theorem codeLength_pieces (t : LoopTree (Action × Nat)) :
    codeLength t.pieces = t.code.length :=
  t.length_code.symm

/-- Two balanced sequences in front of the same closing bracket are the same. -/
theorem eq_of_append_closing {α : Type} {ps qs rest rest' : List (Piece α)}
    (hps : Bracket.Balanced (ps.filterMap bracket?))
    (hqs : Bracket.Balanced (qs.filterMap bracket?))
    (h : ps ++ .closing :: rest = qs ++ .closing :: rest') : ps = qs := by
  rcases List.append_eq_append_iff.1 h with ⟨left, rfl, hleft⟩ | ⟨left, rfl, hleft⟩
  · rcases List.cons_eq_append_iff.1 hleft with ⟨rfl, -⟩ | ⟨left', rfl, -⟩
    · exact (List.append_nil ps).symm
    · rw [List.filterMap_append] at hqs
      exact absurd hqs hps.not_append_closing
  · rcases List.cons_eq_append_iff.1 hleft with ⟨rfl, -⟩ | ⟨left', rfl, -⟩
    · exact List.append_nil qs
    · rw [List.filterMap_append] at hps
      exact absurd hps hqs.not_append_closing

theorem Encloses.codeLength_le {ps before inner : List (Piece (Action × Nat))}
    (h : Encloses ps before inner) : codeLength before + codeLength inner + 2 ≤ codeLength ps := by
  obtain ⟨-, after, rfl⟩ := h
  simp only [codeLength_append, codeLength_cons, instructions]
  omega

/-- What goes on to the right of `qs` is decided inside `qs`, if `qs` is a whole number of loops: a
    bracket of `qs` has its partner in `qs`. -/
theorem Encloses.of_append {α : Type} {qs rest before inner : List (Piece α)}
    (hqs : Bracket.Balanced (qs.filterMap bracket?))
    (h : Encloses (qs ++ .closing :: rest) before inner) :
    Encloses qs before inner ∨
      ∃ before', before = qs ++ .closing :: before' ∧ Encloses rest before' inner := by
  obtain ⟨hinner, after, hps⟩ := h
  rcases List.append_eq_append_iff.1 hps with ⟨between, rfl, hbetween⟩ | ⟨behind, rfl, hbehind⟩
  · -- the opening bracket stands behind `qs`
    rcases List.cons_eq_append_iff.1 hbetween with ⟨rfl, hcons⟩ | ⟨before', rfl, hrest⟩
    · cases hcons
    · exact .inr ⟨before', rfl, hinner, after, hrest⟩
  · rcases List.cons_eq_append_iff.1 hbehind with ⟨rfl, hcons⟩ | ⟨found, rfl, hfound⟩
    · cases hcons
    · -- it stands in `qs`, and `found` is what `qs` has behind it
      have hcloses := Bracket.Balanced.opens_le_closes (List.filterMap_append ▸ hqs)
      simp only [List.filterMap_cons, bracket?, Bracket.opens_cons_opening,
        Bracket.closes_cons_opening] at hcloses
      rcases List.append_eq_append_iff.1 hfound with ⟨left, rfl, hleft⟩ | ⟨left, rfl, hleft⟩
      · rcases List.cons_eq_append_iff.1 hleft with ⟨rfl, -⟩ | ⟨left', rfl, -⟩
        · rw [List.append_nil, hinner.2] at hcloses
          omega
        · exact .inl ⟨hinner, left', rfl⟩
      · -- `inner` would reach out of `qs`, with one closing bracket too many on the way
        have htake := hinner.closes_take_le (found.filterMap bracket?).length
        rw [List.filterMap_append, List.take_left] at htake
        omega

end Piece

/-! ## Loops of a tree -/

namespace LoopTree

theorem balanced_pieces {α : Type} (t : LoopTree α) :
    Bracket.Balanced (t.pieces.filterMap Piece.bracket?) := by
  induction t with
  | done => exact Bracket.balanced_nil
  | leaf a rest ih => exact ih
  | loop body rest ihbody ihrest =>
      have hloop := ihbody.enclose.append ihrest
      simpa [pieces, Piece.bracket?, List.filterMap_append] using hloop

/-- Somewhere in the tree is a loop, in front of which stand the pieces `before` and inside which
    stand the pieces `inner`. -/
inductive HasLoop {α : Type} : LoopTree α → List (Piece α) → List (Piece α) → Prop
  | first (body rest : LoopTree α) : HasLoop (loop body rest) [] body.pieces
  | inside {body : LoopTree α} {before inner : List (Piece α)} (h : HasLoop body before inner)
      (rest : LoopTree α) : HasLoop (loop body rest) (.opening :: before) inner
  | behind {rest : LoopTree α} {before inner : List (Piece α)} (h : HasLoop rest before inner)
      (body : LoopTree α) :
      HasLoop (loop body rest) (.opening :: (body.pieces ++ .closing :: before)) inner
  | behindLeaf {rest : LoopTree α} {before inner : List (Piece α)}
      (h : HasLoop rest before inner) (a : α) : HasLoop (leaf a rest) (.leaf a :: before) inner

theorem HasLoop.encloses {α : Type} {t : LoopTree α} {before inner : List (Piece α)}
    (h : HasLoop t before inner) : Piece.Encloses t.pieces before inner := by
  induction h with
  | first body rest => exact ⟨body.balanced_pieces, rest.pieces, rfl⟩
  | inside h rest ih =>
      obtain ⟨hinner, after, hbody⟩ := ih
      exact ⟨hinner, after ++ .closing :: rest.pieces, by simp [pieces, hbody]⟩
  | behind h body ih =>
      obtain ⟨hinner, after, hrest⟩ := ih
      exact ⟨hinner, after, by simp [pieces, hrest]⟩
  | behindLeaf h a ih =>
      obtain ⟨hinner, after, hrest⟩ := ih
      exact ⟨hinner, after, by simp [pieces, hrest]⟩

/-- Partners that counting finds are the brackets of a loop of the tree. -/
theorem hasLoop_of_encloses {α : Type} {t : LoopTree α} {before inner : List (Piece α)}
    (h : Piece.Encloses t.pieces before inner) : HasLoop t before inner := by
  induction t generalizing before with
  | done =>
      obtain ⟨-, after, hps⟩ := h
      simp [pieces] at hps
  | leaf a rest ih =>
      obtain ⟨hinner, after, hps⟩ := h
      rcases List.cons_eq_append_iff.1 hps with ⟨rfl, hcons⟩ | ⟨before', rfl, hrest⟩
      · cases hcons
      · exact .behindLeaf (ih ⟨hinner, after, hrest⟩) a
  | loop body rest ihbody ihrest =>
      obtain ⟨hinner, after, hps⟩ := h
      rcases List.cons_eq_append_iff.1 hps with ⟨rfl, hcons⟩ | ⟨before', rfl, hpieces⟩
      · have hbody : body.pieces = inner :=
          Piece.eq_of_append_closing body.balanced_pieces hinner (List.cons.inj hcons).2.symm
        rw [← hbody]
        exact .first body rest
      · rcases Piece.Encloses.of_append body.balanced_pieces ⟨hinner, after, hpieces⟩ with
          hbody | ⟨before'', rfl, hrest⟩
        · exact .inside (ihbody hbody) rest
        · exact .behind (ihrest hrest) body

/-! ## The jumps of a tree's code -/

theorem isSome_offset?_of_mem_code {a : Action} {n : Nat} {op : Op} (h : op ∈ a.code n) :
    op.offset?.isSome = false := by
  cases a <;> simp_all [Action.code, Op.offset?]

theorem getElem?_loopCode (body : List Op) (ip : Nat) :
    (loopCode body)[ip]? =
      if ip = 0 then some (.jumpIfZero (Int32.ofInt (body.length + 2)))
      else if ip = body.length + 1 then some (.jump (Int32.ofInt (-(body.length + 1))))
      else body[ip - 1]? := by
  cases ip with
  | zero => rfl
  | succ ip =>
      rw [loopCode, List.getElem?_cons_succ, if_neg (Nat.succ_ne_zero ip)]
      by_cases hlast : ip = body.length
      · simp [hlast]
      · rw [if_neg (by omega), Nat.add_sub_cancel]
        by_cases hlt : ip < body.length
        · exact List.getElem?_append_left hlt
        · rw [List.getElem?_append_right (by omega), List.getElem?_eq_none (l := body) (by omega)]
          exact List.getElem?_eq_none (by rw [List.length_singleton]; omega)

/-- The distances of a loop's jumps are what they should be as long as the loop is not too long. -/
theorem toInt_loopOffsets {n : Nat} (h : n + 2 < 2147483648) :
    (Int32.ofInt (n + 2)).toInt = n + 2 ∧ (Int32.ofInt (-(n + 1))).toInt = -(n + 1) :=
  ⟨Int32.toInt_ofInt_of_le (by omega) (by omega), Int32.toInt_ofInt_of_le (by omega) (by omega)⟩

/-- Where a tree has a loop, its code has one. -/
theorem HasLoop.exists_code {t : LoopTree (Action × Nat)}
    {before inner : List (Piece (Action × Nat))} (h : HasLoop t before inner) :
    ∃ front body back, t.code = front ++ (loopCode body ++ back) ∧
      front.length = Piece.codeLength before ∧ body.length = Piece.codeLength inner := by
  induction h with
  | first body rest => exact ⟨[], body.code, rest.code, rfl, rfl, by simp⟩
  | @inside outer _ _ h rest ih =>
      obtain ⟨front, body, back, hcode, hfront, hbody⟩ := ih
      refine ⟨.jumpIfZero (Int32.ofInt (outer.code.length + 2)) :: front, body,
        back ++ .jump (Int32.ofInt (-(outer.code.length + 1))) :: rest.code, ?_, ?_, hbody⟩
      · simp only [code, loopCode, hcode, List.cons_append, List.append_assoc, List.nil_append]
      · simp [hfront, Piece.instructions, Nat.add_comm]
  | behind h earlier ih =>
      obtain ⟨front, body, back, hcode, hfront, hbody⟩ := ih
      refine ⟨loopCode earlier.code ++ front, body, back, ?_, ?_, hbody⟩
      · rw [code, hcode, List.append_assoc]
      · simp only [List.length_append, length_loopCode, hfront, Piece.codeLength_cons,
          Piece.codeLength_append, Piece.codeLength_pieces, Piece.instructions]
        omega
  | behindLeaf h run ih =>
      obtain ⟨front, body, back, hcode, hfront, hbody⟩ := ih
      refine ⟨run.1.code run.2 ++ front, body, back, ?_, ?_, hbody⟩
      · rw [code, hcode, List.append_assoc]
      · rw [List.length_append, hfront, Piece.codeLength_cons]
        rfl

theorem HasLoop.getElem?_code {t : LoopTree (Action × Nat)}
    {before inner : List (Piece (Action × Nat))} (h : HasLoop t before inner) :
    t.code[Piece.codeLength before]?
        = some (.jumpIfZero (Int32.ofInt (Piece.codeLength inner + 2))) ∧
      t.code[Piece.codeLength before + Piece.codeLength inner + 1]?
        = some (.jump (Int32.ofInt (-(Piece.codeLength inner + 1)))) := by
  obtain ⟨front, body, back, hcode, hfront, hbody⟩ := h.exists_code
  have hat : ∀ i < body.length + 2, t.code[Piece.codeLength before + i]? = (loopCode body)[i]? := by
    intro i hi
    rw [hcode, ← hfront, List.getElem?_append_right (by omega), Nat.add_sub_cancel_left,
      List.getElem?_append_left (by simpa using hi)]
  refine ⟨?_, ?_⟩
  · rw [← Nat.add_zero (Piece.codeLength before), hat 0 (by omega), getElem?_loopCode, if_pos rfl,
      hbody]
  · rw [Nat.add_assoc, hat _ (by omega), getElem?_loopCode, if_neg (by omega), if_pos (by omega),
      hbody]

/-- Every jump of the code belongs to a loop of the tree. -/
theorem exists_hasLoop_of_getElem? {t : LoopTree (Action × Nat)} {ip : Nat} {op : Op}
    (hop : t.code[ip]? = some op) (hjump : op.offset?.isSome = true) :
    ∃ before inner, HasLoop t before inner ∧
      (ip = Piece.codeLength before ∧
          op = .jumpIfZero (Int32.ofInt (Piece.codeLength inner + 2)) ∨
        ip = Piece.codeLength before + Piece.codeLength inner + 1 ∧
          op = .jump (Int32.ofInt (-(Piece.codeLength inner + 1)))) := by
  induction t generalizing ip with
  | done => simp [code] at hop
  | leaf run rest ih =>
      obtain ⟨a, n⟩ := run
      rw [code] at hop
      by_cases hlt : ip < (a.code n).length
      · rw [List.getElem?_append_left hlt] at hop
        rw [isSome_offset?_of_mem_code (List.mem_of_getElem? hop)] at hjump
        contradiction
      · rw [List.getElem?_append_right (by omega)] at hop
        obtain ⟨before, inner, hloop, hplace⟩ := ih hop
        refine ⟨_, inner, .behindLeaf hloop (a, n), ?_⟩
        rw [Piece.codeLength_cons, Piece.instructions]
        exact hplace.imp (fun h => ⟨by omega, h.2⟩) (fun h => ⟨by omega, h.2⟩)
  | loop body rest ihbody ihrest =>
      rw [code] at hop
      by_cases hlt : ip < (loopCode body.code).length
      · rw [List.getElem?_append_left hlt, getElem?_loopCode] at hop
        rw [length_loopCode] at hlt
        split at hop
        · next hfirst =>
          refine ⟨[], body.pieces, .first body rest, .inl ⟨hfirst, ?_⟩⟩
          rw [Piece.codeLength_pieces]
          exact (Option.some.inj hop).symm
        · split at hop
          · next hlast =>
            refine ⟨[], body.pieces, .first body rest, .inr ⟨?_, ?_⟩⟩
            · rw [Piece.codeLength_pieces, hlast, Piece.codeLength_nil, Nat.zero_add]
            · rw [Piece.codeLength_pieces]
              exact (Option.some.inj hop).symm
          · obtain ⟨before, inner, hloop, hplace⟩ := ihbody hop
            refine ⟨_, inner, .inside hloop rest, ?_⟩
            rw [Piece.codeLength_cons, Piece.instructions]
            exact hplace.imp (fun h => ⟨by omega, h.2⟩) (fun h => ⟨by omega, h.2⟩)
      · rw [List.getElem?_append_right (by omega)] at hop
        rw [length_loopCode] at hop hlt
        obtain ⟨before, inner, hloop, hplace⟩ := ihrest hop
        refine ⟨_, inner, .behind hloop body, ?_⟩
        simp only [Piece.codeLength_cons, Piece.codeLength_append, Piece.codeLength_pieces,
          Piece.instructions]
        exact hplace.imp (fun h => ⟨by omega, h.2⟩) (fun h => ⟨by omega, h.2⟩)

theorem jump_iff_loopJump {t : LoopTree (Action × Nat)} (hcode : t.code.length < 2147483648)
    {ip : Nat} {op : Op} :
    t.code[ip]? = some op ∧ op.offset?.isSome = true ↔ Piece.LoopJump t.pieces ip op := by
  have hoffsets : ∀ {before inner}, Piece.Encloses t.pieces before inner →
      Piece.codeLength inner + 2 < 2147483648 := by
    intro before inner hloop
    have hle := hloop.codeLength_le
    rw [Piece.codeLength_pieces] at hle
    omega
  constructor
  · rintro ⟨hop, hjump⟩
    obtain ⟨before, inner, hloop, ⟨hip, rfl⟩ | ⟨hip, rfl⟩⟩ := exists_hasLoop_of_getElem? hop hjump
    · exact .head hloop.encloses hip (toInt_loopOffsets (hoffsets hloop.encloses)).1
    · exact .back hloop.encloses hip (toInt_loopOffsets (hoffsets hloop.encloses)).2
  · rintro (⟨hloop, rfl, hoffset⟩ | ⟨hloop, rfl, hoffset⟩)
    · refine ⟨?_, rfl⟩
      rw [(hasLoop_of_encloses hloop).getElem?_code.1, ← hoffset, Int32.ofInt_toInt]
    · refine ⟨?_, rfl⟩
      rw [(hasLoop_of_encloses hloop).getElem?_code.2, ← hoffset, Int32.ofInt_toInt]

end LoopTree

/-- A jump of a loop leads to an instruction of the loop or right behind it. -/
theorem Piece.LoopJump.target_mem {ps : List (Piece (Action × Nat))} {ip : Nat} {op : Op}
    (h : LoopJump ps ip op) {offset : Int32} (hoffset : op.offset? = some offset) :
    0 ≤ ip + offset.toInt ∧ ip + offset.toInt ≤ codeLength ps := by
  cases h with
  | head hloop hip hdistance =>
      have hle := hloop.codeLength_le
      cases hoffset
      omega
  | back hloop hip hdistance =>
      have hle := hloop.codeLength_le
      cases hoffset
      omega

theorem LoopTree.halt_notMem_code (t : LoopTree (Action × Nat)) : Op.halt ∉ t.code := by
  induction t with
  | done => simp [code]
  | leaf run rest ih =>
      obtain ⟨a, n⟩ := run
      have haction : Op.halt ∉ a.code n := by cases a <;> simp [Action.code]
      simp [code, haction, ih]
  | loop body rest ihbody ihrest => simp [code, loopCode, ihbody, ihrest]

/-- What stands at a place of a tree's code with `halt` behind it. -/
theorem LoopTree.getElem?_code_halt (t : LoopTree (Action × Nat)) {ip : Nat} {op : Op} :
    (t.code ++ [Op.halt])[ip]? = some op ↔
      t.code[ip]? = some op ∨ ip = t.code.length ∧ op = .halt := by
  by_cases hlt : ip < t.code.length
  · rw [List.getElem?_append_left hlt]
    exact ⟨.inl, fun h => h.resolve_right fun hend => by omega⟩
  · rw [List.getElem?_append_right (by omega), List.getElem?_singleton,
      List.getElem?_eq_none (l := t.code) (by omega)]
    split
    · next hzero =>
      have hip : ip = t.code.length := by omega
      simp [hip, eq_comm]
    · next hpos =>
      have hip : ip ≠ t.code.length := by omega
      simp [hip]

namespace Program

/-- Balanced runs compile to the code of their tree with `halt` behind it. In this program every
    jump leads to an instruction, the jumps are exactly the two of each loop, which lead to each
    other as the brackets of the loop do, and nothing but the last instruction is `halt`. -/
theorem ofRuns_eq_tree_code {target : Target} {runs : List Run}
    (hmemory : target.memorySize ≠ 0)
    (hbalanced : Bracket.Balanced ((runs.flatMap Run.commands).filterMap Command.bracket?))
    (hcode : (runs.map Run.instructions).sum < 2 ^ 31) :
    ∃ (t : LoopTree (Action × Nat)) (p : Program),
      LoopTree.ofPieces? (runs.flatMap Run.pieces) = some t ∧ ofRuns target runs = .ok p ∧
      p = { memorySize := target.memorySize, pointerStart := 0, boundsCheck := target.boundsCheck,
            ops := (t.code ++ [Op.halt]).toArray } ∧
      (∀ (ip : Nat) op offset, p.ops[ip]? = some op → op.offset? = some offset →
        0 ≤ ip + offset.toInt ∧ ip + offset.toInt < p.ops.size) ∧
      (∀ ip op, p.ops[ip]? = some op ∧ op.offset?.isSome = true ↔
        Piece.LoopJump (runs.flatMap Run.pieces) ip op) ∧
      ∀ ip : Nat, p.ops[ip]? = some .halt ↔ ip + 1 = p.ops.size := by
  obtain ⟨t, ht⟩ : ∃ t : LoopTree (Action × Nat), t.pieces = runs.flatMap Run.pieces := by
    apply LoopTree.exists_pieces_of_balanced
    rw [Run.filterMap_flatMap_pieces]
    exact hbalanced
  have hlength : t.code.length < 2147483648 := by
    rw [LoopTree.length_code_of_pieces ht]
    exact hcode
  have hjumps : ∀ ip op, (t.code ++ [Op.halt]).toArray[ip]? = some op ∧ op.offset?.isSome = true ↔
      Piece.LoopJump (runs.flatMap Run.pieces) ip op := by
    intro ip op
    rw [← ht, ← LoopTree.jump_iff_loopJump hlength, List.getElem?_toArray,
      LoopTree.getElem?_code_halt]
    refine and_congr_left fun hjump => or_iff_left ?_
    rintro ⟨-, rfl⟩
    contradiction
  refine ⟨t, _, LoopTree.ofPieces?_eq_some_iff.2 ht, ofRuns_eq_ok hmemory ht hlength, rfl, ?_,
    hjumps, ?_⟩
  · intro ip op offset hop hoffset
    have hjump := (hjumps ip op).1 ⟨hop, by rw [hoffset]; rfl⟩
    obtain ⟨hlow, hhigh⟩ := hjump.target_mem hoffset
    rw [← ht, Piece.codeLength_pieces] at hhigh
    simp only [List.size_toArray, List.length_append, List.length_singleton]
    omega
  · intro ip
    rw [List.getElem?_toArray, LoopTree.getElem?_code_halt]
    simp only [List.size_toArray, List.length_append, List.length_singleton]
    constructor
    · rintro (hhalt | ⟨rfl, -⟩)
      · exact absurd (List.mem_of_getElem? hhalt) t.halt_notMem_code
      · rfl
    · intro hip
      exact .inr ⟨Nat.succ.inj hip, trivial⟩

/-- Two loops opened and closed by runs of brackets, around a run of writes that is empty and a run
    that goes around the cell's values once. -/
theorem ofRuns_eq_tree_code_nested :
    let runs : List Run := [⟨.loopStart, 2, ⟨1, 1⟩⟩, ⟨.write, 0, ⟨1, 3⟩⟩,
      ⟨.decrement, 258, ⟨1, 3⟩⟩, ⟨.loopEnd, 2, ⟨1, 4⟩⟩]
    Bracket.Balanced ((runs.flatMap Run.commands).filterMap Command.bracket?) ∧
      (runs.map Run.instructions).sum < 2 ^ 31 ∧
      ofRuns { memorySize := 5, boundsCheck := true } runs = .ok ⟨5, 0, true,
        #[.jumpIfZero 5, .jumpIfZero 3, .subCell 2, .jump (-2), .jump (-4), .halt]⟩ := by
  intro runs
  have hbrackets : (runs.flatMap Run.commands).filterMap Command.bracket?
      = [.opening, .opening, .closing, .closing] := by decide +kernel
  have hbalanced : Bracket.Balanced ((runs.flatMap Run.commands).filterMap Command.bracket?) := by
    rw [hbrackets]
    exact Bracket.balanced_nil.enclose.enclose
  have hcode : (runs.map Run.instructions).sum < 2 ^ 31 := by decide
  have hmemory : (⟨5, true⟩ : Target).memorySize ≠ 0 := by decide
  refine ⟨hbalanced, hcode, ?_⟩
  obtain ⟨t, p, ht, hp, rfl, -⟩ := ofRuns_eq_tree_code hmemory hbalanced hcode
  have htree : t = .loop (.loop (.leaf (.write, 0) (.leaf (.decrement, 258) .done)) .done) .done :=
    LoopTree.pieces_injective (LoopTree.ofPieces?_eq_some_iff.1 ht)
  rw [hp, htree]
  rfl

end Program

end Brainfuck
