import Brainfuck.Structured.Code
import Brainfuck.Proofs.Machine.Run
import Brainfuck.Proofs.Structured.Execution

set_option autoImplicit false

/-! # The machine on the code of a tree

A program that holds the code of a tree somewhere does there what the tree does: it arrives behind
the code in the situation in which the tree ends, or traps where the tree traps
(`LoopTree.Exec.realizes`). Conversely the tree ends if the machine does
(`LoopTree.exists_exec_of_runFor`), so that one diverges if the other does.

Code and tree agree to the last detail with one exception. A checked run of moves is one
instruction, and so it traps behind its last move, while the tree traps behind the first one that
leaves the memory: the pointers differ, and nothing else does. -/

namespace Brainfuck

/-! ## Code in a program -/

namespace Program

variable {p : Program} {ip : Nat}

/-- The program holds these instructions from `ip` on. -/
def HasCode (p : Program) (ip : Nat) (code : List Op) : Prop :=
  ∀ j op, code[j]? = some op → p.ops[ip + j]? = some op

/-- The instruction at `ip` moves the pointer. -/
def MovesAt (p : Program) (ip : Nat) : Prop :=
  ∃ n, p.ops[ip]? = some (.moveLeft n) ∨ p.ops[ip]? = some (.moveRight n)

theorem HasCode.head {op : Op} {code : List Op} (h : p.HasCode ip (op :: code)) :
    p.ops[ip]? = some op :=
  h 0 op rfl

theorem HasCode.left {code code' : List Op} (h : p.HasCode ip (code ++ code')) :
    p.HasCode ip code := by
  intro j op hop
  have hlt : j < code.length := (List.getElem?_eq_some_iff.1 hop).1
  exact h j op (by rw [List.getElem?_append_left hlt, hop])

theorem HasCode.right {code code' : List Op} (h : p.HasCode ip (code ++ code')) :
    p.HasCode (ip + code.length) code' := by
  intro j op hop
  rw [Nat.add_assoc]
  refine h (code.length + j) op ?_
  rw [List.getElem?_append_right (Nat.le_add_right _ _), Nat.add_sub_cancel_left]
  exact hop

theorem HasCode.tail {op : Op} {code : List Op} (h : p.HasCode ip (op :: code)) :
    p.HasCode (ip + 1) code := by
  have hparts : p.HasCode ip ([op] ++ code) := h
  exact hparts.right

end Program

/-! ## Steps in a situation -/

/-- A machine at `ip` in this situation, behind some steps. -/
def Situation.machineAt (s : Situation) (ip steps : Nat) : Machine :=
  { tape := s.tape, streams := s.streams, ip, steps }

/-- The error of a trap at `ip`. -/
def Trap.runError (ip : Nat) : Trap → RunError
  | .pointer place cells => .pointerOutOfBounds place cells ip
  | .stream cause => .stream cause

namespace Step

/-- The step of an instruction at `ip` that goes on behind itself or traps. -/
def ofAction (ip steps : Nat) : Except Trap Unit × Situation → Step
  | (.ok (), s) => .next (s.machineAt (ip + 1) steps)
  | (.error e, s) => .done (.error (e.runError ip)) (s.machineAt ip steps)

end Step

namespace Machine

variable {p : Program} {ip steps : Nat} {s : Situation}

theorem step_machineAt {op : Op} (hop : p.ops[ip]? = some op) :
    (s.machineAt ip steps).step p none = (s.machineAt ip (steps + 1)).execute p op := by
  simp only [step, Situation.machineAt, hop, exceeded?, Option.filter_none]

theorem updateCell_machineAt (f : UInt8 → UInt8) :
    (s.machineAt ip steps).updateCell f = .ofAction ip steps (s.update f) := by
  simp only [updateCell, Situation.update, Situation.machineAt]
  cases s.tape.index? <;> rfl

theorem writeCell_machineAt :
    (s.machineAt ip steps).writeCell = .ofAction ip steps (Action.write.perform s) := by
  simp only [writeCell, Action.perform, Situation.machineAt]
  cases s.tape.index? with
  | none => rfl
  | some i =>
      rcases hwrite : s.streams.write (s.tape.get i) with ⟨_ | _, streams⟩ <;>
        simp only [hwrite] <;> rfl

theorem readCell_machineAt :
    (s.machineAt ip steps).readCell = .ofAction ip steps (Action.read.perform s) := by
  simp only [readCell, Action.perform, Situation.machineAt]
  rcases s.streams.flush with ⟨_ | _, streams⟩
  · rfl
  · rcases hread : streams.read with ⟨_ | byte, streams'⟩
    · simp only [hread]
      rfl
    · simp only [hread]
      exact updateCell_machineAt (s := { s with streams := streams' }) _

theorem checkMove_machineAt (check : Bool) :
    (s.machineAt ip steps).checkMove check = .ofAction ip steps
      (if check = true ∧ ¬ s.tape.InRange then (.error s.outOfBounds, s) else (.ok (), s)) := by
  simp only [checkMove, Bool.and_eq_true, Tape.isNone_index?_iff, Situation.machineAt]
  split <;> rfl

theorem jumpIfZero_machineAt (size : Nat) (offset : Int32) :
    (s.machineAt ip steps).jumpIfZero size offset = match s.tape.cell? with
      | none => .done (.error (s.outOfBounds.runError ip)) (s.machineAt ip steps)
      | some b =>
        if b = 0 then (s.machineAt ip steps).jump size offset
        else .next (s.machineAt (ip + 1) steps) := by
  simp only [jumpIfZero, Tape.cell?, Situation.machineAt]
  cases s.tape.index? <;> rfl

theorem jump_machineAt {size target : Nat} {offset : Int32} (hle : target ≤ size)
    (htarget : ip + offset.toInt = target) :
    (s.machineAt ip steps).jump size offset = .next (s.machineAt target steps) := by
  have hrange : 0 ≤ (target : Int) ∧ (target : Int) ≤ size := by omega
  simp only [jump, Situation.machineAt, htarget, if_pos hrange, Int.toNat_natCast]

end Machine

/-! ## Realizing an outcome -/

namespace Program

variable {p : Program} {s s' : Situation} {ip ip' : Nat}

/-- From `ip` the machine gets to `ip'`. -/
def Reaches (p : Program) (s : Situation) (ip : Nat) (s' : Situation) (ip' : Nat) : Prop :=
  ∀ steps, ∃ k steps',
    Machine.after? p none k (s.machineAt ip steps) = some (s'.machineAt ip' steps')

/-- How the program may trap at `ip` where a tree traps with `e` in the situation `s`: in the same
    way, or, by a checked move, somewhere else outside the memory. -/
inductive TrapsLike (p : Program) (ip : Nat) (e : Trap) (s : Situation) : Trap → Situation → Prop
  | same (h : p.boundsCheck = true → ∃ cause, e = .stream cause) : TrapsLike p ip e s e s
  | overshoot (hcheck : p.boundsCheck = true) (hmove : p.MovesAt ip) (he : e = s.outOfBounds)
      (d : Int) : TrapsLike p ip e s (s.shift d).outOfBounds (s.shift d)

/-- From `ip` the machine traps where a tree traps with `e` in the situation `s'`. -/
def Traps (p : Program) (s : Situation) (ip : Nat) (e : Trap) (s' : Situation) : Prop :=
  ∀ steps, ∃ fuel ip' steps' e' s'',
    Machine.runFor p none fuel (s.machineAt ip steps)
      = some (.error (Trap.runError ip' e'), s''.machineAt ip' steps') ∧
    p.TrapsLike ip' e s' e' s''

/-- From `ip` the machine does what an outcome says: it gets to `ip'`, or it traps. -/
def Realizes (p : Program) (s : Situation) (ip ip' : Nat) : Except Trap Unit × Situation → Prop
  | (.ok (), s') => p.Reaches s ip s' ip'
  | (.error e, s') => p.Traps s ip e s'

theorem Reaches.refl : p.Reaches s ip s ip := fun steps => ⟨0, steps, rfl⟩

theorem Reaches.of_step
    (h : ∀ steps, (s.machineAt ip steps).step p none = .next (s'.machineAt ip' (steps + 1))) :
    p.Reaches s ip s' ip' :=
  fun steps => ⟨1, steps + 1, Machine.after?_one (h steps)⟩

theorem Reaches.trans {s'' : Situation} {ip'' : Nat} (h : p.Reaches s ip s' ip')
    (h' : p.Reaches s' ip' s'' ip'') : p.Reaches s ip s'' ip'' := by
  intro steps
  obtain ⟨k, steps', hk⟩ := h steps
  obtain ⟨k', steps'', hk'⟩ := h' steps'
  exact ⟨k + k', steps'', Machine.after?_add hk hk'⟩

theorem Reaches.realizes {r : Except Trap Unit × Situation} {ip'' : Nat}
    (h : p.Reaches s ip s' ip') (h' : p.Realizes s' ip' ip'' r) : p.Realizes s ip ip'' r := by
  rcases r with ⟨e | _, s''⟩
  · intro steps
    obtain ⟨k, steps', hk⟩ := h steps
    obtain ⟨fuel, ip₁, steps₁, e₁, s₁, hrun, hlike⟩ := h' steps'
    exact ⟨k + fuel, ip₁, steps₁, e₁, s₁, (Machine.runFor_after? hk fuel).trans hrun, hlike⟩
  · exact h.trans h'

/-- A run that ends goes on from wherever the machine gets to. -/
theorem Reaches.runFor {fuel steps : Nat} {r : Except RunError Unit × Machine}
    (h : p.Reaches s ip s' ip')
    (hrun : Machine.runFor p none fuel (s.machineAt ip steps) = some r) :
    ∃ left steps', left ≤ fuel ∧
      Machine.runFor p none left (s'.machineAt ip' steps') = some r := by
  obtain ⟨k, steps', hk⟩ := h steps
  obtain ⟨left, rfl, hleft⟩ := Machine.runFor_of_after? hk hrun
  exact ⟨left, steps', Nat.le_add_left left k, hleft⟩

/-- A trap ends a run within one step. -/
theorem Traps.of_step {e e' : Trap} {s'' : Situation}
    (h : ∀ steps, (s.machineAt ip steps).step p none
      = .done (.error (e'.runError ip)) (s''.machineAt ip (steps + 1)))
    (hlike : p.TrapsLike ip e s' e' s'') : p.Traps s ip e s' :=
  fun steps => ⟨1, ip, steps + 1, e', s'', Machine.runFor_of_step_done (h steps), hlike⟩

/-- An instruction realizes what its step says. Where moves are checked, this has to be more than
    a pointer at no cell. -/
theorem Realizes.of_step {r : Except Trap Unit × Situation}
    (h : ∀ steps, (s.machineAt ip steps).step p none = .ofAction ip (steps + 1) r)
    (hr : p.boundsCheck = true → ∀ e, r.1 = .error e → ∃ cause, e = .stream cause) :
    p.Realizes s ip (ip + 1) r := by
  rcases r with ⟨e | _, s'⟩
  · exact Traps.of_step h (.same fun hcheck => hr hcheck e rfl)
  · exact Reaches.of_step h

/-! ## A run of one action -/

/-- A change of a cell, or a call of a stream, is one instruction. -/
theorem realizes_perform {a : Action} {op : Op} (hop : p.ops[ip]? = some op)
    (hexec : ∀ (s : Situation) (steps : Nat),
      (s.machineAt ip steps).execute p op = .ofAction ip steps (a.perform s))
    (hs : s.Guarded p.boundsCheck) : p.Realizes s ip (ip + 1) (a.perform s) := by
  refine Realizes.of_step (fun steps => ?_) fun hcheck e he => ?_
  · rw [Machine.step_machineAt hop, hexec]
  · exact Action.stream_of_perform (hs hcheck).1 he

/-- Instructions that each do an action once. -/
theorem realizes_actTimes_replicate {a : Action} {op : Op} (ha : a.move? = none)
    (hexec : ∀ (s : Situation) (ip steps : Nat),
      (s.machineAt ip steps).execute p op = .ofAction ip steps (a.perform s))
    {n : Nat} (hcode : p.HasCode ip (List.replicate n op)) (hs : s.Guarded p.boundsCheck) :
    p.Realizes s ip (ip + n) (a.actTimes p.boundsCheck n s) := by
  induction n generalizing s ip with
  | zero => exact Reaches.refl
  | succ n ih =>
      -- the first copy, and then the others from where it leads
      have hfirst := realizes_perform hcode.head (hexec · ip) hs
      rw [← Action.act_of_move?_eq_none ha p.boundsCheck] at hfirst
      rw [Action.actTimes]
      cases hact : a.act p.boundsCheck s with
      | mk outcome s₁ =>
          rw [hact] at hfirst
          cases outcome with
          | ok =>
              have hrest := ih hcode.tail (Action.act_guarded hs hact)
              rw [Nat.add_assoc, Nat.add_comm 1 n] at hrest
              exact Reaches.realizes hfirst hrest
          | error e => exact hfirst

/-- A run of moves is one instruction, which is checked where it ends. -/
theorem realizes_actTimes_move {a : Action} {d : Int} (ha : a.move? = some d) {n : Nat}
    (hlimit : n ≤ Tape.cellLimit) {op : Op} (hop : p.ops[ip]? = some op) (hmove : p.MovesAt ip)
    (hexec : ∀ steps, (s.machineAt ip steps).execute p op
      = ((s.shift (n * d)).machineAt ip steps).checkMove p.boundsCheck)
    (hs : s.Guarded p.boundsCheck) :
    p.Realizes s ip (ip + 1) (a.actTimes p.boundsCheck n s) := by
  have hstep : ∀ steps, (s.machineAt ip steps).step p none = .ofAction ip (steps + 1)
      (if p.boundsCheck = true ∧ ¬ (s.shift (n * d)).tape.InRange
        then (.error (s.shift (n * d)).outOfBounds, s.shift (n * d))
        else (.ok (), s.shift (n * d))) := by
    intro steps
    rw [Machine.step_machineAt hop, hexec, Machine.checkMove_machineAt]
  cases hcheck : p.boundsCheck with
  | false =>
      rw [Action.actTimes_move ha]
      refine Reaches.of_step fun steps => ?_
      rw [hstep, if_neg (by simp [hcheck])]
      rfl
  | true =>
      rw [hcheck] at hs
      have hmoves := Action.actTimes_move_checked ha n hlimit hs
      by_cases hin : (s.shift (n * d)).tape.InRange
      · rw [if_pos hin] at hmoves
        rw [hmoves]
        refine Reaches.of_step fun steps => ?_
        rw [hstep, if_neg (by simp [hin])]
        rfl
      · rw [if_neg hin] at hmoves
        obtain ⟨k, hk⟩ := hmoves
        rw [hk]
        -- the tree stops at distance `k`, the machine goes all the way
        have hway : s.shift (n * d) = (s.shift k).shift (n * d - k) := by
          rw [Situation.shift_shift]
          congr 1
          omega
        refine Traps.of_step (fun steps => ?_) (.overshoot hcheck hmove rfl (n * d - k))
        rw [hstep, if_pos ⟨hcheck, hin⟩, hway]
        rfl

theorem realizes_actTimes {a : Action} {n : Nat} (hpos : 0 < n) (hlimit : n ≤ Tape.cellLimit)
    (hcode : p.HasCode ip (a.code n)) (hs : s.Guarded p.boundsCheck) :
    p.Realizes s ip (ip + (a.code n).length) (a.actTimes p.boundsCheck n s) := by
  -- changes of a cell add up in one instruction, which finds a cell wherever moves are checked
  have hupdate : ∀ {f : UInt8 → UInt8} {op : Op}, p.ops[ip]? = some op →
      (∀ steps, (s.machineAt ip steps).execute p op
        = (s.machineAt ip steps).updateCell f) → p.Realizes s ip (ip + 1) (s.update f) := by
    intro f op hop hexec
    refine Realizes.of_step (fun steps => ?_) fun hcheck e he => ?_
    · rw [Machine.step_machineAt hop, hexec, Machine.updateCell_machineAt]
    · rw [Situation.fst_update_of_inRange (hs hcheck).1] at he
      contradiction
  obtain ⟨m, rfl⟩ : ∃ m, n = m + 1 := ⟨n - 1, by omega⟩
  cases a with
  | increment =>
      rw [Action.actTimes_increment]
      exact hupdate hcode.head fun _ => rfl
  | decrement =>
      rw [Action.actTimes_decrement]
      exact hupdate hcode.head fun _ => rfl
  | moveLeft =>
      refine realizes_actTimes_move rfl hlimit hcode.head ⟨_, .inl hcode.head⟩ (fun steps => ?_) hs
      rw [Machine.execute, Situation.machineAt, Tape.moveLeft_ofNat, Int.mul_neg, Int.mul_one]
      rfl
  | moveRight =>
      refine realizes_actTimes_move rfl hlimit hcode.head ⟨_, .inr hcode.head⟩ (fun steps => ?_) hs
      rw [Machine.execute, Situation.machineAt, Tape.moveRight_ofNat, Int.mul_one]
      rfl
  | write =>
      rw [Action.code, List.length_replicate]
      refine realizes_actTimes_replicate rfl ?_ hcode hs
      exact fun _ _ _ => Machine.writeCell_machineAt
  | read =>
      rw [Action.code, List.length_replicate]
      refine realizes_actTimes_replicate rfl ?_ hcode hs
      exact fun _ _ _ => Machine.readCell_machineAt

/-! ## The jumps of a loop -/

section Loop

variable {code : List Op} (hcode : p.HasCode ip (LoopTree.loopCode code))
include hcode

theorem step_enterLoop {b : UInt8} (hcell : s.tape.cell? = some b) (hb : b ≠ 0) (steps : Nat) :
    (s.machineAt ip steps).step p none = .next (s.machineAt (ip + 1) (steps + 1)) := by
  rw [Machine.step_machineAt hcode.head, Machine.execute, Machine.jumpIfZero_machineAt, hcell]
  exact if_neg hb

theorem traps_loopTest (hcell : s.tape.cell? = none) (hs : s.Guarded p.boundsCheck) :
    p.Traps s ip s.outOfBounds s := by
  refine Traps.of_step (fun steps => ?_) (.same fun hcheck => ?_)
  · rw [Machine.step_machineAt hcode.head, Machine.execute, Machine.jumpIfZero_machineAt, hcell]
  · -- a checked pointer is at a cell
    have hout := (s.tape.index?_eq_none_iff).1 ((s.tape.cell?_eq_none_iff).1 hcell)
    exact absurd (hs hcheck).1 hout

variable (hlength : code.length + 2 < 2147483648)
include hlength

theorem reaches_leaveLoop (hcell : s.tape.cell? = some 0) :
    p.Reaches s ip s (ip + (LoopTree.loopCode code).length) := by
  -- the jump at the end of the loop is in the program, so that one may go on right behind it
  have hend : p.ops[ip + (code.length + 1)]?
      = some (.jump (Int32.ofInt (-(code.length + 1)))) :=
    hcode _ _ (by simp [LoopTree.loopCode])
  have hsize := (Array.getElem?_eq_some_iff.1 hend).1
  refine Reaches.of_step fun steps => ?_
  rw [Machine.step_machineAt hcode.head, Machine.execute, Machine.jumpIfZero_machineAt, hcell]
  refine Machine.jump_machineAt ?_ ?_
  · rw [LoopTree.length_loopCode]
    omega
  · rw [LoopTree.length_loopCode, Int32.toInt_ofInt_of_le (by omega) (by omega)]
    omega

theorem reaches_repeatLoop : p.Reaches s (ip + 1 + code.length) s ip := by
  have hjump := hcode.tail.right.head
  have hsize := (Array.getElem?_eq_some_iff.1 hjump).1
  refine Reaches.of_step fun steps => ?_
  rw [Machine.step_machineAt hjump, Machine.execute]
  refine Machine.jump_machineAt (by omega) ?_
  rw [Int32.toInt_ofInt_of_le (by omega) (by omega)]
  omega

end Loop

end Program

/-! ## Trees and their code -/

namespace LoopTree

/-- The runs of a tree are neither empty nor longer than any tape, and its loops are short enough
    to jump over. -/
def Fits : LoopTree (Action × Nat) → Prop
  | done => True
  | leaf (_, n) rest => (0 < n ∧ n ≤ Tape.cellLimit) ∧ rest.Fits
  | loop body rest => body.code.length + 2 < 2147483648 ∧ body.Fits ∧ rest.Fits

variable {p : Program} {ip : Nat} {s s' : Situation} {o : Except Trap Unit}

/-- The code of a tree does what the tree does. -/
theorem Exec.realizes {t : LoopTree (Action × Nat)} (ht : t.Fits) (hcode : p.HasCode ip t.code)
    (hs : s.Guarded p.boundsCheck) (h : Exec p.boundsCheck t.expand s o s') :
    p.Realizes s ip (ip + t.code.length) (o, s') := by
  induction t generalizing ip s o s' with
  | done =>
      cases h
      exact Program.Reaches.refl
  | leaf run rest ihrest =>
      obtain ⟨a, n⟩ := run
      obtain ⟨⟨hpos, hlimit⟩, hrest⟩ := ht
      -- the run traps, or the rest goes on where the run leads
      have hrun := Program.realizes_actTimes hpos hlimit hcode.left hs
      rw [expand, exec_leaves_iff] at h
      cases hact : a.actTimes p.boundsCheck n s with
      | mk outcome s₁ =>
          rw [hact] at h hrun
          cases outcome with
          | error e =>
              obtain ⟨rfl, rfl⟩ := h
              exact hrun
          | ok =>
              have htail := ihrest hrest hcode.right (Action.actTimes_guarded hs hact) h
              rw [Nat.add_assoc, ← List.length_append] at htail
              exact Program.Reaches.realizes hrun htail
  | loop body rest ihbody ihrest =>
      obtain ⟨hlength, hbody, hrest⟩ := ht
      have hloop := hcode.left
      have hin := hloop.tail.left
      -- the passes through the loop are those of the derivation, the code stays where it is
      generalize hu : (loop body rest).expand = u at h
      rw [expand] at hu
      induction h with
      | done => contradiction
      | leaf => contradiction
      | leafTrap => contradiction
      | loopTrap hcell => exact Program.traps_loopTest hloop hcell hs
      | loopExit hcell h =>
          obtain ⟨rfl, rfl⟩ := LoopTree.loop.inj hu
          have htail := ihrest hrest hcode.right hs h
          rw [Nat.add_assoc, ← List.length_append] at htail
          exact (Program.reaches_leaveLoop hloop hlength hcell).realizes htail
      | loopBody hcell hb h _ _ ihagain =>
          obtain ⟨rfl, rfl⟩ := LoopTree.loop.inj hu
          have hpass : p.Reaches _ (ip + 1) _ (ip + 1 + body.code.length) := ihbody hbody hin hs h
          have henter := Program.Reaches.of_step (Program.step_enterLoop hloop hcell hb)
          have hback := (henter.trans hpass).trans (Program.reaches_repeatLoop hloop hlength)
          exact hback.realizes (ihagain (h.guarded rfl hs) rfl)
      | loopBodyTrap hcell hb h =>
          obtain ⟨rfl, rfl⟩ := LoopTree.loop.inj hu
          have henter := Program.Reaches.of_step (Program.step_enterLoop hloop hcell hb)
          have htrap : p.Traps _ (ip + 1) _ _ := ihbody hbody hin hs h
          exact Program.Reaches.realizes henter htrap

/-- A tree ends if the machine does on its code. The induction is on a bound of the fuel, which a
    pass through a loop lowers, and inside on the tree. -/
theorem exists_exec_of_runFor_le (bound : Nat) : ∀ {t : LoopTree (Action × Nat)}
    {ip fuel steps : Nat} {s : Situation} {r : Except RunError Unit × Machine},
    t.Fits → p.HasCode ip t.code → s.Guarded p.boundsCheck → fuel ≤ bound →
    Machine.runFor p none fuel (s.machineAt ip steps) = some r →
    ∃ o s', Exec p.boundsCheck t.expand s o s' := by
  induction bound with
  | zero =>
      intro t ip fuel steps s r _ _ _ hle hrun
      obtain rfl := Nat.le_zero.1 hle
      simp [Machine.runFor] at hrun
  | succ bound ihbound =>
      intro t
      induction t with
      | done => exact fun _ _ _ _ _ => ⟨_, _, .done⟩
      | leaf run rest ihrest =>
          obtain ⟨a, n⟩ := run
          intro ip fuel steps s r ht hcode hs hle hrun
          obtain ⟨⟨hpos, hlimit⟩, hrest⟩ := ht
          have hreal := Program.realizes_actTimes hpos hlimit hcode.left hs
          simp only [expand, exec_leaves_iff]
          cases hact : a.actTimes p.boundsCheck n s with
          | mk outcome s₁ =>
              cases outcome with
              | error e => exact ⟨.error e, s₁, rfl, rfl⟩
              | ok =>
                  rw [hact] at hreal
                  have hs₁ := Action.actTimes_guarded hs hact
                  obtain ⟨left, _, hleft, hrun⟩ := Program.Reaches.runFor hreal hrun
                  exact ihrest hrest hcode.right hs₁ (Nat.le_trans hleft hle) hrun
      | loop body rest ihbody ihrest =>
          intro ip fuel steps s r ht hcode hs hle hrun
          obtain ⟨hlength, hbody, hrest⟩ := ht
          have hloop := hcode.left
          have hin := hloop.tail.left
          rw [expand]
          cases hcell : s.tape.cell? with
          | none => exact ⟨_, _, .loopTrap hcell⟩
          | some b =>
              by_cases hb : b = 0
              · subst hb
                obtain ⟨left, _, hleft, hrun⟩ :=
                  (Program.reaches_leaveLoop hloop hlength hcell).runFor hrun
                obtain ⟨o, s', h⟩ :=
                  ihrest hrest hcode.right hs (Nat.le_trans hleft hle) hrun
                exact ⟨o, s', .loopExit hcell h⟩
              · -- entering the loop takes a step, which is why the next pass has less fuel
                have henter := Program.step_enterLoop hloop hcell hb steps
                obtain ⟨left, hleft, hrun⟩ :=
                  Machine.runFor_of_after? (Machine.after?_one henter) hrun
                obtain ⟨o, s', h⟩ := ihbody hbody hin hs (by omega) hrun
                cases o with
                | error e => exact ⟨.error e, s', .loopBodyTrap hcell hb h⟩
                | ok =>
                    have hpass : p.Reaches s (ip + 1) s' (ip + 1 + body.code.length) :=
                      h.realizes hbody hin hs
                    obtain ⟨again, _, hagain, hrun⟩ :=
                      (hpass.trans (Program.reaches_repeatLoop hloop hlength)).runFor hrun
                    obtain ⟨o, s'', hrepeat⟩ := ihbound (t := loop body rest)
                      ⟨hlength, hbody, hrest⟩ hcode (h.guarded rfl hs) (by omega) hrun
                    exact ⟨o, s'', .loopBody hcell hb h hrepeat⟩

theorem exists_exec_of_runFor {t : LoopTree (Action × Nat)} (ht : t.Fits)
    (hcode : p.HasCode ip t.code) (hs : s.Guarded p.boundsCheck) {fuel steps : Nat}
    {r : Except RunError Unit × Machine}
    (hrun : Machine.runFor p none fuel (s.machineAt ip steps) = some r) :
    ∃ o s', Exec p.boundsCheck t.expand s o s' :=
  exists_exec_of_runFor_le fuel ht hcode hs (Nat.le_refl fuel) hrun

end LoopTree

end Brainfuck
