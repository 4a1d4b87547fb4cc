import Brainfuck.Text.Columns

set_option autoImplicit false

/-! # Texts that are read line by line

What a text of several lines says can be found again if no line has a newline inside it
(`lines_unlines`), and what a line says if its parts are divided by a character that stands in none
of them (`eq_of_append_cons`). The parts that vary are numbers in decimal, which hold digits and
perhaps a sign in front. -/

namespace Brainfuck.Text

/-! ## Lines -/

/-- The parts of a text between its newlines; what stands behind the last newline is one of them. -/
def lines (text : String) : List String :=
  (text.toList.splitOn '\n').map String.ofList

/-- The text of the given lines, each of them ended by a newline. -/
def unlines (ls : List String) : String :=
  String.join (ls.map (· ++ "\n"))

/-- The text has no newline. -/
def OneLine (s : String) : Prop := '\n' ∉ s.toList

instance (s : String) : Decidable (OneLine s) :=
  inferInstanceAs (Decidable ('\n' ∉ s.toList))

theorem oneLine_append (s t : String) : OneLine (s ++ t) ↔ OneLine s ∧ OneLine t := by
  simp [OneLine]

theorem unlines_append (ls ls' : List String) :
    unlines (ls ++ ls') = unlines ls ++ unlines ls' := by
  rw [unlines, List.map_append, String.join_append]
  rfl

/-- A text that is put together part by part, each part of it in lines. -/
theorem foldl_append_unlines {α : Type} {part : α → String} {partLines : α → List String}
    (h : ∀ x, part x = unlines (partLines x)) (xs : List α) (text : String) :
    xs.foldl (fun text x => text ++ part x) text = text ++ unlines (xs.flatMap partLines) := by
  induction xs generalizing text with
  | nil => exact String.append_empty.symm
  | cons x xs ih =>
      rw [List.foldl_cons, ih, List.flatMap_cons, unlines_append, h, String.append_assoc]

/-- The lines of which a text is made are found again, with nothing behind the last newline. -/
theorem lines_unlines {ls : List String} (h : ∀ l ∈ ls, OneLine l) :
    lines (unlines ls) = ls ++ [""] := by
  induction ls with
  | nil => simp [lines, unlines]
  | cons l ls ih =>
      obtain ⟨hl, hls⟩ := List.forall_mem_cons.1 h
      have htext : (unlines (l :: ls)).toList = l.toList ++ '\n' :: (unlines ls).toList := by
        simp [unlines]
      rw [lines, htext, List.splitOn_append_cons_self_of_not_mem hl, List.map_cons,
        String.ofList_toList, List.cons_append, ← ih hls, lines]

theorem unlines_inj {ls ls' : List String} (h : ∀ l ∈ ls, OneLine l) (h' : ∀ l ∈ ls', OneLine l)
    (heq : unlines ls = unlines ls') : ls = ls' := by
  have hlines := congrArg lines heq
  rw [lines_unlines h, lines_unlines h'] at hlines
  exact List.append_cancel_right hlines

/-- The first part of a line ends at the first divider. -/
theorem eq_of_append_cons {divider : Char} {part part' rest rest' : List Char}
    (h : divider ∉ part) (h' : divider ∉ part')
    (heq : part ++ divider :: rest = part' ++ divider :: rest') : part = part' ∧ rest = rest' := by
  have hsplit := congrArg (List.splitOn divider) heq
  rw [List.splitOn_append_cons_self_of_not_mem h,
    List.splitOn_append_cons_self_of_not_mem h'] at hsplit
  obtain rfl := (List.cons.inj hsplit).1
  exact ⟨rfl, (List.cons.inj (List.append_cancel_left heq)).2⟩

/-! ## Numbers -/

theorem toList_decimal (n : Nat) : (toString n).toList = Nat.toDigits 10 n := by
  rw [Nat.toString_eq_repr, Nat.toList_repr]

theorem isDigit_of_mem_decimal {n : Nat} {c : Char} (h : c ∈ (toString n).toList) :
    c.isDigit = true := by
  rw [toList_decimal] at h
  exact Nat.isDigit_of_mem_toDigits (by decide) (by decide) h

theorem toDigits_injective {n m : Nat} (h : Nat.toDigits 10 n = Nat.toDigits 10 m) : n = m := by
  have hvalue := congrArg (Nat.ofDigitChars 10 · 0) h
  simpa only [Nat.ofDigitChars_ten_toDigits] using hvalue

theorem decimal_injective {n m : Nat} (h : toString n = toString m) : n = m := by
  have hdigits := congrArg String.toList h
  rw [toList_decimal, toList_decimal] at hdigits
  exact toDigits_injective hdigits

/-- Leading zeros are digits too. -/
theorem isDigit_of_mem_zeroPadded {width n : Nat} {c : Char}
    (h : c ∈ (zeroPadded width n).toList) : c.isDigit = true := by
  rw [zeroPadded, toList_padLeft] at h
  rcases List.mem_append.1 h with hzero | hdigit
  · rw [List.eq_of_mem_replicate hzero]
    decide
  · exact isDigit_of_mem_decimal hdigit

theorem zeroPadded_ne_nil (width n : Nat) : (zeroPadded width n).toList ≠ [] := by
  rw [zeroPadded, toList_padLeft, toList_decimal]
  exact List.append_ne_nil_of_right_ne_nil _ Nat.toDigits_ne_nil

/-- Leading zeros do not change what a number is read as. -/
theorem ofDigitChars_zeroPadded (width n : Nat) :
    Nat.ofDigitChars 10 (zeroPadded width n).toList 0 = n := by
  have hzeros : ∀ k, Nat.ofDigitChars 10 (List.replicate k '0') 0 = 0 := by
    intro k
    induction k with
    | zero => rfl
    | succ k ih => rwa [List.replicate_succ, Nat.ofDigitChars_cons]
  rw [zeroPadded, toList_padLeft, Nat.ofDigitChars_append, hzeros, toList_decimal,
    Nat.ofDigitChars_ten_toDigits]

/-- A signed number is its sign and its absolute value. -/
theorem toList_signed (n : Int) :
    (signed n).toList = (if n < 0 then '-' else '+') :: Nat.toDigits 10 n.natAbs := by
  by_cases hn : n < 0
  · have habs : (-n).toNat = n.natAbs := by omega
    rw [signed, if_pos hn, if_pos hn, Int.toString_eq_repr, Int.repr_eq_if, if_neg (by omega), habs,
      String.toList_append, Nat.toList_repr]
    rfl
  · have habs : n.toNat = n.natAbs := by omega
    rw [signed, if_neg hn, if_neg hn, Int.toString_eq_repr, Int.repr_eq_if, if_pos (by omega), habs,
      String.toList_append, Nat.toList_repr]
    rfl

theorem signed_injective {n m : Int} (h : (signed n).toList = (signed m).toList) : n = m := by
  rw [toList_signed, toList_signed] at h
  obtain ⟨hsign, hdigits⟩ := List.cons.inj h
  have habs := toDigits_injective hdigits
  by_cases hn : n < 0 <;> by_cases hm : m < 0
  · omega
  · rw [if_pos hn, if_neg hm] at hsign
    contradiction
  · rw [if_neg hn, if_pos hm] at hsign
    contradiction
  · omega

theorem not_mem_signed {n : Int} {c : Char} (hdigit : c.isDigit = false) (hminus : c ≠ '-')
    (hplus : c ≠ '+') : c ∉ (signed n).toList := by
  rw [toList_signed]
  intro hmem
  rcases List.mem_cons.1 hmem with hsign | hmem
  · split at hsign
    · exact hminus hsign
    · exact hplus hsign
  · have hc := Nat.isDigit_of_mem_toDigits (by decide) (by decide) hmem
    rw [hdigit] at hc
    contradiction

/-! ### Numbers stand on one line -/

theorem not_mem_of_isDigit_eq_false {s : String} {c : Char}
    (hs : ∀ c ∈ s.toList, c.isDigit = true) (hc : c.isDigit = false) : c ∉ s.toList := by
  intro hmem
  rw [hs c hmem] at hc
  contradiction

theorem oneLine_decimal (n : Nat) : OneLine (toString n) :=
  not_mem_of_isDigit_eq_false (fun _ => isDigit_of_mem_decimal) (by decide)

theorem oneLine_zeroPadded (width n : Nat) : OneLine (zeroPadded width n) :=
  not_mem_of_isDigit_eq_false (fun _ => isDigit_of_mem_zeroPadded) (by decide)

theorem oneLine_signed (n : Int) : OneLine (signed n) :=
  not_mem_signed (by decide) (by decide) (by decide)

end Brainfuck.Text
