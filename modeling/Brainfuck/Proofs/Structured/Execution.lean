import Brainfuck.Structured.Semantics
import Brainfuck.Proofs.Machine.Tape
import Brainfuck.Proofs.Structured.Expansion

set_option autoImplicit false

/-! # Executions of a tree

The meaning of a tree as a relation: `Exec` has one rule for each way in which a tree can go on, and
a tree that does not end has no derivation. Moves can be checked or not; without the check, the
relation is what `LoopTree.exec` computes (`LoopTree.exists_exec_iff`).

A run of the same action is executed at once in the code. What this comes to, action by action, is
said by `Action.actTimes`: changes of a cell add up, moves add up as long as they are not checked,
and a checked run of moves ends outside the memory exactly if the run as a whole leads there. -/

namespace Brainfuck

/-! ## One action -/

namespace Situation

theorem update_eq (s : Situation) (f : UInt8 → UInt8) :
    s.update f = match s.tape.modify? f with
      | none => (.error s.outOfBounds, s)
      | some tape => (.ok (), { s with tape }) := by
  unfold update Tape.modify?
  cases s.tape.index? <;> rfl

/-- A change of a cell leaves the pointer and the number of cells as they are. -/
theorem update_spec (s : Situation) (f : UInt8 → UInt8) :
    (s.update f).2.tape.cells.size = s.tape.cells.size ∧
      (s.update f).2.tape.pointer = s.tape.pointer := by
  rw [update_eq]
  split
  · exact ⟨rfl, rfl⟩
  · next tape htape => exact ⟨Tape.size_cells_modify? htape, Tape.pointer_modify? htape⟩

theorem fst_update_of_inRange {s : Situation} (hs : s.tape.InRange) (f : UInt8 → UInt8) :
    (s.update f).1 = .ok () := by
  obtain ⟨hlt, hindex⟩ := hs.index?_eq
  rw [update, hindex]

/-- Moves the pointer by a signed distance. -/
def shift (s : Situation) (d : Int) : Situation :=
  { s with tape := s.tape.shift d }

theorem shift_shift (s : Situation) (d e : Int) : (s.shift d).shift e = s.shift (d + e) := by
  rw [shift, shift, shift, Tape.shift_shift]

theorem shift_mul_succ (s : Situation) (d : Int) (n : Nat) :
    (s.shift d).shift (n * d) = s.shift ((n + 1 : Nat) * d) := by
  rw [shift_shift, Int.natCast_add, Int.add_mul, Int.add_comm]
  congr 2
  exact (Int.one_mul d).symm

/-- Where moves are checked, the pointer is at a cell, on a tape that has room. -/
def Guarded (check : Bool) (s : Situation) : Prop :=
  check = true → s.tape.InRange ∧ s.tape.cells.size < Tape.cellLimit

end Situation

namespace Action

/-- How far an action moves the pointer, if it is a move. -/
def move? : Action → Option Int
  | moveLeft => some (-1)
  | moveRight => some 1
  | _ => none

/-- Does an action once. With `check`, a move that leaves the memory is a trap. -/
def act (check : Bool) (a : Action) (s : Situation) : Except Trap Unit × Situation :=
  match a.perform s with
  | (.ok (), s') =>
    if check && a.move?.isSome && s'.tape.index?.isNone then (.error s'.outOfBounds, s')
    else (.ok (), s')
  | (.error e, s') => (.error e, s')

/-- Does an action `n` times, or until it traps. -/
def actTimes (check : Bool) (a : Action) : (n : Nat) → Situation → Except Trap Unit × Situation
  | 0, s => (.ok (), s)
  | n + 1, s =>
    match a.act check s with
    | (.ok (), s') => a.actTimes check n s'
    | (.error e, s') => (.error e, s')

theorem act_false (a : Action) (s : Situation) : a.act false s = a.perform s := by
  unfold act
  split <;> simp_all

theorem act_of_move?_eq_none {a : Action} (ha : a.move? = none) (check : Bool) (s : Situation) :
    a.act check s = a.perform s := by
  unfold act
  split <;> simp_all

theorem perform_of_move? {a : Action} {d : Int} (ha : a.move? = some d) (s : Situation) :
    a.perform s = (.ok (), s.shift d) := by
  cases a with
  | moveLeft =>
      obtain rfl : -1 = d := Option.some.inj ha
      rw [perform, Int64.sub_eq_add_neg]
      rfl
  | moveRight =>
      obtain rfl : 1 = d := Option.some.inj ha
      rfl
  | _ => simp [move?] at ha

theorem act_of_move? {a : Action} {d : Int} (ha : a.move? = some d) (check : Bool)
    (s : Situation) :
    a.act check s = if check = true ∧ ¬ (s.shift d).tape.InRange
      then (.error (s.shift d).outOfBounds, s.shift d) else (.ok (), s.shift d) := by
  simp only [act, perform_of_move? ha, ha, Option.isSome_some, Bool.and_true, Bool.and_eq_true,
    Tape.isNone_index?_iff]

/-! ## What actions leave alone -/

/-- An action that is not a move leaves the pointer where it is, and no action changes the number
    of cells. -/
theorem perform_spec (a : Action) (s : Situation) :
    (a.perform s).2.tape.cells.size = s.tape.cells.size ∧
      (a.move? = none → (a.perform s).2.tape.pointer = s.tape.pointer) := by
  cases a with
  | increment => exact (s.update_spec _).imp id fun h _ => h
  | decrement => exact (s.update_spec _).imp id fun h _ => h
  | moveLeft => exact ⟨rfl, fun h => by simp [move?] at h⟩
  | moveRight => exact ⟨rfl, fun h => by simp [move?] at h⟩
  | write =>
      simp only [perform]
      split
      · exact ⟨rfl, fun _ => rfl⟩
      · split <;> exact ⟨rfl, fun _ => rfl⟩
  | read =>
      simp only [perform]
      split
      · exact ⟨rfl, fun _ => rfl⟩
      · split
        · exact ⟨rfl, fun _ => rfl⟩
        · exact (Situation.update_spec _ _).imp id fun h _ => h

/-- With the pointer at a cell, only the streams can fail. -/
theorem stream_of_perform {a : Action} {s : Situation} {e : Trap} (hs : s.tape.InRange)
    (h : (a.perform s).1 = .error e) : ∃ cause, e = .stream cause := by
  have hupdate : ∀ (s : Situation) (f : UInt8 → UInt8), s.tape.InRange →
      (s.update f).1 ≠ .error e := by
    intro s f hs
    rw [Situation.fst_update_of_inRange hs]
    exact nofun
  cases a with
  | increment => exact absurd h (hupdate s _ hs)
  | decrement => exact absurd h (hupdate s _ hs)
  | moveLeft => contradiction
  | moveRight => contradiction
  | write =>
      obtain ⟨hlt, hindex⟩ := hs.index?_eq
      simp only [perform, hindex] at h
      split at h
      · contradiction
      · next cause _ _ => exact ⟨cause, (Except.error.inj h).symm⟩
  | read =>
      simp only [perform] at h
      split at h
      · next cause _ _ => exact ⟨cause, (Except.error.inj h).symm⟩
      · split at h
        · next cause _ _ => exact ⟨cause, (Except.error.inj h).symm⟩
        · exact absurd h (hupdate _ _ hs)

/-- Where moves are checked, the pointer stays at a cell. -/
theorem act_guarded {check : Bool} {a : Action} {s s' : Situation} (hs : s.Guarded check)
    (h : a.act check s = (.ok (), s')) : s'.Guarded check := by
  rintro rfl
  obtain ⟨hrange, hsize⟩ := hs rfl
  cases ha : a.move? with
  | none =>
      rw [act_of_move?_eq_none ha] at h
      obtain ⟨hcells, hpointer⟩ := a.perform_spec s
      rw [h] at hcells hpointer
      rw [Tape.InRange, hpointer ha, hcells]
      exact ⟨hrange, hsize⟩
  | some d =>
      rw [act_of_move? ha] at h
      split at h
      · simp at h
      · next hin =>
        obtain ⟨-, rfl⟩ := Prod.mk.inj h
        exact ⟨by simpa using hin, hsize⟩

theorem actTimes_guarded {check : Bool} {a : Action} {n : Nat} {s s' : Situation}
    (hs : s.Guarded check) (h : a.actTimes check n s = (.ok (), s')) : s'.Guarded check := by
  induction n generalizing s with
  | zero =>
      obtain ⟨-, rfl⟩ := Prod.mk.inj h
      exact hs
  | succ n ih =>
      rw [actTimes] at h
      split at h
      · next s₁ hact => exact ih (act_guarded hs hact) h
      · simp at h

/-! ## The same action several times -/

/-- Changes of a cell add up to one change. -/
theorem actTimes_of_update {a : Action} (ha : a.move? = none) {f : UInt8 → UInt8}
    (hperform : ∀ s, a.perform s = s.update f) {g : Nat → UInt8 → UInt8}
    (hzero : ∀ b, g 0 b = b) (hsucc : ∀ n b, g (n + 1) b = g n (f b)) (check : Bool) (n : Nat)
    (s : Situation) : a.actTimes check (n + 1) s = s.update (g (n + 1)) := by
  induction n generalizing s with
  | zero =>
      have hf : g 1 = f := by
        funext b
        rw [hsucc, hzero]
      rw [actTimes, act_of_move?_eq_none ha, hperform, hf]
      split
      · next s' hupdate => exact hupdate.symm
      · next e s' hupdate => exact hupdate.symm
  | succ n ih =>
      have hg : g (n + 1 + 1) = fun b => g (n + 1) (f b) := funext (hsucc (n + 1))
      rw [actTimes, act_of_move?_eq_none ha, hperform, hg]
      cases hmodify : s.tape.modify? f with
      | none =>
          have hmodify' : s.tape.modify? (fun b => g (n + 1) (f b)) = none := by
            rw [Tape.modify?_eq_none_iff] at hmodify ⊢
            exact hmodify
          simp only [Situation.update_eq, hmodify, hmodify']
      | some tape =>
          -- the pointer stays, so that the other changes find the same cell
          have hrange := (Tape.inRange_of_modify? hmodify).modify? hmodify
          obtain ⟨tape', htape'⟩ := hrange.exists_modify? (g (n + 1))
          have hboth : s.tape.modify? (fun b => g (n + 1) (f b)) = some tape' := by
            rw [← Tape.modify?_modify? hmodify, htape']
          simp only [Situation.update_eq s, hmodify, hboth, ih]
          rw [Situation.update_eq, htape']

theorem actTimes_increment (check : Bool) (n : Nat) (s : Situation) :
    increment.actTimes check (n + 1) s = s.update (· + UInt8.ofNat (n + 1)) := by
  refine actTimes_of_update rfl (f := (· + 1)) (fun _ => rfl) (g := fun n b => b + UInt8.ofNat n)
    ?_ ?_ check n s
  · intro b
    simp
  · intro n b
    rw [UInt8.ofNat_add, UInt8.add_comm (UInt8.ofNat n), ← UInt8.add_assoc]
    rfl

theorem actTimes_decrement (check : Bool) (n : Nat) (s : Situation) :
    decrement.actTimes check (n + 1) s = s.update (· - UInt8.ofNat (n + 1)) := by
  refine actTimes_of_update rfl (f := (· - 1)) (fun _ => rfl) (g := fun n b => b - UInt8.ofNat n)
    ?_ ?_ check n s
  · intro b
    simp
  · intro n b
    simp only [UInt8.sub_eq_add_neg, UInt8.ofNat_add, UInt8.neg_add]
    rw [UInt8.add_assoc, UInt8.add_comm (-1)]
    rfl

/-- Moves that are not checked add up to one move. -/
theorem actTimes_move {a : Action} {d : Int} (ha : a.move? = some d) (n : Nat) (s : Situation) :
    a.actTimes false n s = (.ok (), s.shift (n * d)) := by
  induction n generalizing s with
  | zero => simp [actTimes, Situation.shift, Tape.shift_zero]
  | succ n ih =>
      rw [actTimes, act_false, perform_of_move? ha, ← Situation.shift_mul_succ]
      exact ih (s.shift d)

/-- Checked moves lead as far as one move would if that stays in the memory, and trap on the way if
    it does not. -/
theorem actTimes_move_checked {a : Action} {d : Int} (ha : a.move? = some d) (n : Nat)
    (hn : n ≤ Tape.cellLimit) {s : Situation} (hs : s.Guarded true) :
    if (s.shift (n * d)).tape.InRange then a.actTimes true n s = (.ok (), s.shift (n * d))
    else ∃ k, a.actTimes true n s = (.error (s.shift k).outOfBounds, s.shift k) := by
  have hunit : d = 1 ∨ d = -1 := by cases a <;> simp [move?] at ha <;> omega
  induction n generalizing s with
  | zero =>
      have hzero : s.shift ((0 : Nat) * d) = s := by simp [Situation.shift, Tape.shift_zero]
      rw [hzero, if_pos (hs rfl).1]
      rfl
  | succ n ih =>
      obtain ⟨hrange, hsize⟩ := hs rfl
      by_cases hin : (s.shift d).tape.InRange
      · have hstep : a.actTimes true (n + 1) s = a.actTimes true n (s.shift d) := by
          rw [actTimes, act_of_move? ha, if_neg (by simp [hin])]
        have hrest := ih (by omega) (s := s.shift d) (fun _ => ⟨hin, hsize⟩)
        rw [Situation.shift_mul_succ] at hrest
        rw [hstep]
        split
        · next hall => rwa [if_pos hall] at hrest
        · next hall =>
          rw [if_neg hall] at hrest
          obtain ⟨k, hk⟩ := hrest
          exact ⟨d + k, by rw [hk, Situation.shift_shift]⟩
      · -- the first move leaves the memory, and the others lead further away
        have hfar : ¬ (s.shift ((n + 1 : Nat) * d)).tape.InRange := by
          have hone := hrange.toInt_pointer_shift hsize (d := d) (by omega) (by omega)
          have hall := hrange.toInt_pointer_shift hsize (d := (n + 1 : Nat) * d)
            (by rcases hunit with rfl | rfl <;> omega) (by rcases hunit with rfl | rfl <;> omega)
          simp only [Tape.InRange, Situation.shift] at hin hrange ⊢
          rw [hone] at hin
          rw [hall]
          simp only [Tape.shift] at hin hrange ⊢
          rcases hunit with rfl | rfl <;> omega
        rw [if_neg hfar]
        refine ⟨d, ?_⟩
        rw [actTimes, act_of_move? ha, if_pos ⟨rfl, hin⟩]

end Action

namespace LoopTree

/-! ## The relation -/

/-- A tree, started in a situation, ends with an outcome in another situation. -/
inductive Exec (check : Bool) : LoopTree Action → Situation → Except Trap Unit → Situation → Prop
  | done {s : Situation} : Exec check done s (.ok ()) s
  | leaf {a : Action} {rest : LoopTree Action} {s s' s'' : Situation} {o : Except Trap Unit}
      (hact : a.act check s = (.ok (), s')) (hrest : Exec check rest s' o s'') :
      Exec check (leaf a rest) s o s''
  | leafTrap {a : Action} {rest : LoopTree Action} {s s' : Situation} {e : Trap}
      (hact : a.act check s = (.error e, s')) : Exec check (leaf a rest) s (.error e) s'
  | loopTrap {body rest : LoopTree Action} {s : Situation} (hcell : s.tape.cell? = none) :
      Exec check (loop body rest) s (.error s.outOfBounds) s
  | loopExit {body rest : LoopTree Action} {s s' : Situation} {o : Except Trap Unit}
      (hcell : s.tape.cell? = some 0) (hrest : Exec check rest s o s') :
      Exec check (loop body rest) s o s'
  | loopBody {body rest : LoopTree Action} {s s' s'' : Situation} {o : Except Trap Unit} {b : UInt8}
      (hcell : s.tape.cell? = some b) (hb : b ≠ 0) (hbody : Exec check body s (.ok ()) s')
      (hagain : Exec check (loop body rest) s' o s'') : Exec check (loop body rest) s o s''
  | loopBodyTrap {body rest : LoopTree Action} {s s' : Situation} {e : Trap} {b : UInt8}
      (hcell : s.tape.cell? = some b) (hb : b ≠ 0) (hbody : Exec check body s (.error e) s') :
      Exec check (loop body rest) s (.error e) s'

theorem Exec.guarded {check : Bool} {t : LoopTree Action} {s s' : Situation}
    {o : Except Trap Unit} (h : Exec check t s o s') (ho : o = .ok ()) (hs : s.Guarded check) :
    s'.Guarded check := by
  induction h with
  | done => exact hs
  | leaf hact _ ih => exact ih ho (Action.act_guarded hs hact)
  | leafTrap => contradiction
  | loopTrap => contradiction
  | loopExit _ _ ih => exact ih ho hs
  | loopBody _ _ _ _ ihbody ihagain => exact ihagain ho (ihbody rfl hs)
  | loopBodyTrap => contradiction

theorem exec_leaves_iff {check : Bool} {a : Action} {rest : LoopTree Action} {n : Nat}
    {s s' : Situation} {o : Except Trap Unit} :
    Exec check (leaves a rest n) s o s' ↔
      match a.actTimes check n s with
      | (.ok (), s₁) => Exec check rest s₁ o s'
      | (.error e, s₁) => o = .error e ∧ s' = s₁ := by
  induction n generalizing s with
  | zero => exact Iff.rfl
  | succ n ih =>
      rw [leaves, Action.actTimes]
      constructor
      · intro h
        cases h with
        | leaf hact hrest =>
            rw [hact]
            exact ih.1 hrest
        | leafTrap hact =>
            rw [hact]
            exact ⟨rfl, rfl⟩
      · intro h
        cases hact : a.act check s with
        | mk outcome s₁ =>
            rw [hact] at h
            cases outcome with
            | ok => exact .leaf hact (ih.2 h)
            | error e =>
                obtain ⟨rfl, rfl⟩ := h
                exact .leafTrap hact

/-! ## The relation and the function -/

theorem exec_of_le {fuel more : Nat} (hle : fuel ≤ more) {t : LoopTree Action} {s : Situation}
    {r : Except Trap Unit × Situation} (h : t.exec fuel s = some r) : t.exec more s = some r := by
  induction hle with
  | refl => exact h
  | step _ ih => exact exec_succ ih

theorem exec_loop (body rest : LoopTree Action) (fuel : Nat) (s : Situation) :
    (loop body rest).exec (fuel + 1) s = match s.tape.cell? with
      | none => some (.error s.outOfBounds, s)
      | some b =>
        if b = 0 then rest.exec fuel s
        else match body.exec fuel s with
          | some (.ok (), s) => (loop body rest).exec fuel s
          | ended => ended := by
  rw [exec, Tape.cell?]
  cases s.tape.index? <;> rfl

theorem exec_sound {fuel : Nat} : ∀ {t : LoopTree Action} {s s' : Situation}
    {o : Except Trap Unit}, t.exec fuel s = some (o, s') → Exec false t s o s' := by
  induction fuel with
  | zero => intro t s s' o h; simp [exec] at h
  | succ fuel ih =>
      intro t s s' o h
      cases t with
      | done =>
          obtain ⟨rfl, rfl⟩ := Prod.mk.inj (Option.some.inj h)
          exact .done
      | leaf a rest =>
          rw [exec] at h
          split at h
          · next s₁ hperform => exact .leaf ((a.act_false s).trans hperform) (ih h)
          · next e s₁ hperform =>
            obtain ⟨rfl, rfl⟩ := Prod.mk.inj (Option.some.inj h)
            exact .leafTrap ((a.act_false s).trans hperform)
      | loop body rest =>
          rw [exec_loop] at h
          cases hcell : s.tape.cell? with
          | none =>
              rw [hcell] at h
              obtain ⟨rfl, rfl⟩ := Prod.mk.inj (Option.some.inj h)
              exact .loopTrap hcell
          | some b =>
              rw [hcell] at h
              by_cases hb : b = 0
              · subst hb
                exact .loopExit hcell (ih h)
              · simp only [if_neg hb] at h
                split at h
                · next s₁ hbody => exact .loopBody hcell hb (ih hbody) (ih h)
                · next hended =>
                  cases o with
                  | ok => exact absurd h (hended s')
                  | error e => exact .loopBodyTrap hcell hb (ih h)

theorem Exec.complete {t : LoopTree Action} {s s' : Situation} {o : Except Trap Unit}
    (h : Exec false t s o s') : ∃ fuel, t.exec fuel s = some (o, s') := by
  induction h with
  | done => exact ⟨1, rfl⟩
  | leaf hact _ ih =>
      obtain ⟨fuel, hfuel⟩ := ih
      rw [Action.act_false] at hact
      exact ⟨fuel + 1, by rw [exec, hact]; exact hfuel⟩
  | leafTrap hact =>
      rw [Action.act_false] at hact
      exact ⟨1, by rw [exec, hact]⟩
  | loopTrap hcell => exact ⟨1, by rw [exec_loop, hcell]⟩
  | loopExit hcell _ ih =>
      obtain ⟨fuel, hfuel⟩ := ih
      exact ⟨fuel + 1, by rw [exec_loop, hcell]; exact hfuel⟩
  | loopBody hcell hb _ _ ihbody ihagain =>
      obtain ⟨fuel, hfuel⟩ := ihbody
      obtain ⟨fuel', hfuel'⟩ := ihagain
      -- the larger amount is enough for the body and for what follows
      refine ⟨max fuel fuel' + 1, ?_⟩
      rw [exec_loop, hcell]
      simp only [if_neg hb, exec_of_le (Nat.le_max_left fuel fuel') hfuel]
      exact exec_of_le (Nat.le_max_right fuel fuel') hfuel'
  | loopBodyTrap hcell hb _ ihbody =>
      obtain ⟨fuel, hfuel⟩ := ihbody
      refine ⟨fuel + 1, ?_⟩
      rw [exec_loop, hcell]
      simp only [if_neg hb, hfuel]

/-- Without the check, the relation is what execution within enough fuel gives. -/
theorem exists_exec_iff {t : LoopTree Action} {s s' : Situation} {o : Except Trap Unit} :
    (∃ fuel, t.exec fuel s = some (o, s')) ↔ Exec false t s o s' :=
  ⟨fun ⟨_, h⟩ => exec_sound h, Exec.complete⟩

end LoopTree

end Brainfuck
