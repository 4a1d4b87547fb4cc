import Brainfuck.Source.Run
import Mathlib.Data.List.Induction

set_option autoImplicit false

/-! # Sequences of brackets

What it means that brackets match is said by counting: no beginning of the sequence may have more
closing brackets than opening ones, and in total there must be as many of either. If a sequence
fails this, there is one bracket to blame: the first closing bracket too many, or else the last
opening bracket that is never closed.

Reading the sequence once with a stack of the open brackets (`Bracket.track`) finds this bracket.
The reason is the shape of what has been read: balanced parts with one open bracket between each
two of them (`Bracket.Nested`), and the open brackets are those on the stack. -/

namespace Brainfuck

inductive Bracket where
  | opening
  | closing
deriving DecidableEq, Repr

namespace Bracket

/-! ## Counting -/

/-- How many opening brackets there are. -/
def opens (bs : List Bracket) : Nat := bs.count .opening

/-- How many closing brackets there are. -/
def closes (bs : List Bracket) : Nat := bs.count .closing

/-- The first `n` brackets have more closing brackets than opening ones. -/
def Surplus (bs : List Bracket) (n : Nat) : Prop :=
  opens (bs.take n) < closes (bs.take n)

/-- Every closing bracket closes an earlier opening one, and all of these are closed. -/
def Balanced (bs : List Bracket) : Prop :=
  (∀ n, ¬ Surplus bs n) ∧ opens bs = closes bs

/-- The opening bracket at `i` has a partner: from it on, up to some place, there are as many
    brackets of either kind. -/
def Closed (bs : List Bracket) (i : Nat) : Prop :=
  ∃ n, 0 < n ∧ i + n ≤ bs.length ∧
    opens ((bs.drop i).take n) = closes ((bs.drop i).take n)

/-- The first closing bracket too many is at the place `p`. -/
def FirstSurplus (bs : List (Bracket × Position)) (p : Position) : Prop :=
  ∃ i, bs[i]? = some (.closing, p) ∧ Surplus (bs.map Prod.fst) (i + 1) ∧
    ∀ n ≤ i, ¬ Surplus (bs.map Prod.fst) n

/-- The last opening bracket that is never closed is at the place `p`. -/
def LastUnclosed (bs : List (Bracket × Position)) (p : Position) : Prop :=
  ∃ i, bs[i]? = some (.opening, p) ∧ ¬ Closed (bs.map Prod.fst) i ∧
    ∀ j, i < j → (bs.map Prod.fst)[j]? = some .opening → Closed (bs.map Prod.fst) j

@[simp] theorem opens_nil : opens [] = 0 := rfl

@[simp] theorem closes_nil : closes [] = 0 := rfl

@[simp] theorem opens_cons_opening (bs : List Bracket) : opens (.opening :: bs) = opens bs + 1 := by
  simp [opens]

@[simp] theorem opens_cons_closing (bs : List Bracket) : opens (.closing :: bs) = opens bs := by
  simp [opens]

@[simp] theorem closes_cons_opening (bs : List Bracket) : closes (.opening :: bs) = closes bs := by
  simp [closes]

@[simp] theorem closes_cons_closing (bs : List Bracket) :
    closes (.closing :: bs) = closes bs + 1 := by
  simp [closes]

@[simp] theorem opens_append (bs cs : List Bracket) : opens (bs ++ cs) = opens bs + opens cs := by
  simp [opens]

@[simp] theorem closes_append (bs cs : List Bracket) :
    closes (bs ++ cs) = closes bs + closes cs := by
  simp [closes]

/-! ## Balanced sequences -/

theorem Balanced.closes_take_le {bs : List Bracket} (h : Balanced bs) (n : Nat) :
    closes (bs.take n) ≤ opens (bs.take n) :=
  Nat.not_lt.1 (h.1 n)

theorem balanced_nil : Balanced [] := by
  refine ⟨fun n => ?_, rfl⟩
  simp [Surplus]

theorem Balanced.append {bs cs : List Bracket} (hb : Balanced bs) (hc : Balanced cs) :
    Balanced (bs ++ cs) := by
  refine ⟨fun n => ?_, ?_⟩
  · have hbn := hb.closes_take_le n
    have hcn := hc.closes_take_le (n - bs.length)
    simp only [Surplus, List.take_append, opens_append, closes_append]
    omega
  · rw [opens_append, closes_append, hb.2, hc.2]

/-- A balanced sequence between two brackets is balanced. -/
theorem Balanced.enclose {bs : List Bracket} (h : Balanced bs) :
    Balanced (.opening :: (bs ++ [.closing])) := by
  refine ⟨fun n => ?_, ?_⟩
  · cases n with
    | zero => simp [Surplus]
    | succ n =>
        have hn := h.closes_take_le n
        -- the last bracket adds at most one to the closing ones, which the first one pays for
        have hlast : closes ([Bracket.closing].take (n - bs.length)) ≤ 1 := by
          cases n - bs.length <;> simp
        simp only [Surplus, List.take_succ_cons, List.take_append, opens_cons_opening,
          closes_cons_opening, opens_append, closes_append]
        omega
  · have htotal := h.2
    simp only [opens_cons_opening, closes_cons_opening, opens_append, closes_append,
      opens_cons_closing, closes_cons_closing, opens_nil, closes_nil]
    omega

/-- Behind an opening bracket the counts meet as soon as the closing brackets have caught up. -/
theorem exists_take_eq (bs : List Bracket) (h : opens bs + 1 ≤ closes bs) :
    ∃ n ≤ bs.length, opens (bs.take n) + 1 = closes (bs.take n) := by
  induction bs using List.reverseRecOn with
  | nil => simp at h
  | append_singleton bs b ih =>
      by_cases hbs : opens bs + 1 ≤ closes bs
      · obtain ⟨n, hn, heq⟩ := ih hbs
        refine ⟨n, ?_, ?_⟩
        · rw [List.length_append]
          omega
        · rw [List.take_append_of_le_length hn]
          exact heq
      · refine ⟨(bs ++ [b]).length, Nat.le_refl _, ?_⟩
        rw [List.take_length]
        cases b <;> simp at h ⊢ <;> omega

/-- In a balanced sequence every opening bracket has a partner. -/
theorem Balanced.closed {bs : List Bracket} (h : Balanced bs) {i : Nat}
    (hi : bs[i]? = some .opening) : Closed bs i := by
  obtain ⟨hlt, hget⟩ := List.getElem?_eq_some_iff.1 hi
  have hdrop : bs.drop i = .opening :: bs.drop (i + 1) := by
    rw [List.drop_eq_getElem_cons hlt, hget]
  have hsplit : bs = bs.take i ++ .opening :: bs.drop (i + 1) := by
    rw [← hdrop, List.take_append_drop]
  have hopens : opens bs = opens (bs.take i) + (opens (bs.drop (i + 1)) + 1) := by
    conv_lhs => rw [hsplit]
    simp
  have hcloses : closes bs = closes (bs.take i) + closes (bs.drop (i + 1)) := by
    conv_lhs => rw [hsplit]
    simp
  have hbefore := h.closes_take_le i
  have htotal := h.2
  obtain ⟨n, hn, heq⟩ := exists_take_eq (bs.drop (i + 1)) (by omega)
  refine ⟨n + 1, Nat.succ_pos n, ?_, ?_⟩
  · rw [List.length_drop] at hn
    omega
  · rw [hdrop, List.take_succ_cons, opens_cons_opening, closes_cons_opening]
    exact heq

/-! ## Reading with a stack -/

/-- Reads one bracket, given the places of the open ones, the innermost first. The error is the
    place of a closing bracket that closes nothing. -/
def track (stack : List Position) : Bracket × Position → Except Position (List Position)
  | (.opening, p) => .ok (p :: stack)
  | (.closing, p) =>
    match stack with
    | [] => .error p
    | _ :: outer => .ok outer

/-- A sequence in which the brackets at the given places are open, the innermost first, and no
    others: between them and at both ends it is balanced. -/
inductive Nested : List (Bracket × Position) → List Position → Prop where
  | flat {bs : List (Bracket × Position)} (h : Balanced (bs.map Prod.fst)) : Nested bs []
  | inside {before inner : List (Bracket × Position)} {p : Position} {stack : List Position}
      (hbefore : Nested before stack) (hinner : Balanced (inner.map Prod.fst)) :
      Nested (before ++ (.opening, p) :: inner) (p :: stack)

/-- More balanced brackets at the end leave the open ones as they are. -/
theorem Nested.append {bs cs : List (Bracket × Position)} {stack : List Position}
    (h : Nested bs stack) (hcs : Balanced (cs.map Prod.fst)) : Nested (bs ++ cs) stack := by
  cases h with
  | flat hbs =>
      refine .flat ?_
      rw [List.map_append]
      exact hbs.append hcs
  | inside hbefore hinner =>
      rw [List.append_assoc, List.cons_append]
      refine .inside hbefore ?_
      rw [List.map_append]
      exact hinner.append hcs

/-- A closing bracket ends the innermost open part. -/
theorem Nested.close {bs : List (Bracket × Position)} {p q : Position} {stack : List Position}
    (h : Nested bs (p :: stack)) : Nested (bs ++ [(.closing, q)]) stack := by
  cases h with
  | inside hbefore hinner =>
      rw [List.append_assoc]
      refine hbefore.append ?_
      simpa using hinner.enclose

theorem Nested.closes_take_le {bs : List (Bracket × Position)} {stack : List Position}
    (h : Nested bs stack) (n : Nat) :
    closes ((bs.map Prod.fst).take n) ≤ opens ((bs.map Prod.fst).take n) := by
  induction h generalizing n with
  | flat h => exact h.closes_take_le n
  | @inside before inner p stack _ hinner ih =>
      have hbefore := ih n
      have hopen : closes ([Bracket.opening].take (n - before.length)) = 0 := by
        cases n - before.length <;> simp
      have hrest := hinner.closes_take_le (n - before.length - 1)
      have htake : ((before ++ (.opening, p) :: inner).map Prod.fst).take n
          = (before.map Prod.fst).take n ++ ([Bracket.opening].take (n - before.length)
            ++ (inner.map Prod.fst).take (n - before.length - 1)) := by
        rw [List.map_append, List.map_cons, List.take_append, List.length_map,
          ← List.singleton_append, List.take_append]
        rfl
      simp only [htake, opens_append, closes_append]
      omega

theorem Nested.opens_eq {bs : List (Bracket × Position)} {stack : List Position}
    (h : Nested bs stack) :
    opens (bs.map Prod.fst) = closes (bs.map Prod.fst) + stack.length := by
  induction h with
  | flat h => exact h.2
  | inside _ hinner ih =>
      have hrest := hinner.2
      simp only [List.map_append, List.map_cons, opens_append, closes_append, opens_cons_opening,
        closes_cons_opening, List.length_cons]
      omega

theorem Nested.balanced {bs : List (Bracket × Position)} (h : Nested bs []) :
    Balanced (bs.map Prod.fst) := by
  cases h with
  | flat h => exact h

/-- The bracket on top of the stack is the last one that is never closed. -/
theorem Nested.lastUnclosed {bs : List (Bracket × Position)} {p : Position}
    {stack : List Position} (h : Nested bs (p :: stack)) : LastUnclosed bs p := by
  cases h with
  | @inside before inner _ _ _ hinner =>
      have hmap : (before ++ (.opening, p) :: inner).map Prod.fst
          = before.map Prod.fst ++ Bracket.opening :: inner.map Prod.fst := by simp
      refine ⟨before.length, by simp, ?_, ?_⟩
      · -- behind it there are never more closing brackets than opening ones
        rintro ⟨n, hpos, -, heq⟩
        obtain ⟨n, rfl⟩ : ∃ k, n = k + 1 := ⟨n - 1, by omega⟩
        rw [hmap, List.drop_left' (List.length_map Prod.fst), List.take_succ_cons,
          opens_cons_opening, closes_cons_opening] at heq
        have hle := hinner.closes_take_le n
        omega
      · intro j hj hget
        obtain ⟨k, rfl⟩ : ∃ k, j = before.length + (k + 1) := ⟨j - before.length - 1, by omega⟩
        have hshift : ∀ m, ((before ++ (.opening, p) :: inner).map Prod.fst).drop
            (before.length + (m + 1)) = (inner.map Prod.fst).drop m := by
          intro m
          rw [hmap, ← List.drop_drop, List.drop_left' (List.length_map Prod.fst),
            List.drop_succ_cons]
        have hinnerGet : (inner.map Prod.fst)[k]? = some .opening := by
          rw [← List.head?_drop, ← hshift, List.head?_drop]
          exact hget
        obtain ⟨n, hpos, hle, heq⟩ := hinner.closed hinnerGet
        refine ⟨n, hpos, ?_, ?_⟩
        · simp only [List.length_map, List.length_append, List.length_cons] at hle ⊢
          omega
        · rw [hshift]
          exact heq

/-- Reading goes on from what has been read before: either all brackets are read and those on the
    stack are open, or the first closing bracket too many has been met. -/
theorem Nested.foldlM_track (bs : List (Bracket × Position)) :
    ∀ {read : List (Bracket × Position)} {stack : List Position}, Nested read stack →
      match bs.foldlM track stack with
      | .ok stack' => Nested (read ++ bs) stack'
      | .error p => FirstSurplus (read ++ bs) p := by
  induction bs with
  | nil =>
      intro read stack h
      rw [List.append_nil]
      exact h
  | cons b bs ih =>
      intro read stack h
      obtain ⟨kind, p⟩ := b
      have hassoc : ∀ c : Bracket × Position, read ++ c :: bs = (read ++ [c]) ++ bs := by simp
      cases kind with
      | opening =>
          rw [List.foldlM_cons, hassoc]
          exact ih (.inside h balanced_nil)
      | closing =>
          cases stack with
          | cons q outer =>
              rw [List.foldlM_cons, hassoc]
              exact ih h.close
          | nil =>
              -- what has been read is balanced, so that this bracket is one too many
              refine ⟨read.length, by simp, ?_, ?_⟩
              · have htotal := h.balanced.2
                have htake : ((read ++ (.closing, p) :: bs).map Prod.fst).take (read.length + 1)
                    = read.map Prod.fst ++ [.closing] := by
                  have hlength : ((read ++ [(Bracket.closing, p)]).map Prod.fst).length
                      = read.length + 1 := by simp
                  rw [hassoc, List.map_append, List.take_left' hlength, List.map_append]
                  rfl
                rw [Surplus, htake]
                simp only [opens_append, closes_append, opens_cons_closing, closes_cons_closing,
                  opens_nil, closes_nil]
                omega
              · intro n hn
                rw [Surplus, List.map_append, List.take_append_of_le_length (by simpa using hn)]
                exact h.balanced.1 n

theorem foldlM_track (bs : List (Bracket × Position)) :
    match bs.foldlM track [] with
    | .ok stack => Nested bs stack
    | .error p => FirstSurplus bs p :=
  have hnil : Nested [] [] := .flat balanced_nil
  hnil.foldlM_track bs

end Bracket

end Brainfuck
