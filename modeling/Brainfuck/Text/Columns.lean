set_option autoImplicit false

/-! # Text in columns

Padding to a least width. A text that is already wide enough is left as it is, so nothing is ever
cut off. -/

namespace Brainfuck.Text

/-- `s` moved to the right end of a field of `width` characters, filled up with `fill`. -/
def padLeft (width : Nat) (fill : Char) (s : String) : String :=
  String.ofList (s.toList.leftpad width fill)

/-- `s` at the left end of a field of `width` characters, filled up with blanks. -/
def padRight (width : Nat) (s : String) : String :=
  String.ofList (s.toList.rightpad width ' ')

/-- A number in decimal, with leading zeros up to `width` digits. -/
def zeroPadded (width n : Nat) : String :=
  padLeft width '0' (toString n)

/-- A number in decimal with its sign, `+` for zero and above. -/
def signed (n : Int) : String :=
  if n < 0 then toString n else "+" ++ toString n

theorem toList_padLeft (width : Nat) (fill : Char) (s : String) :
    (padLeft width fill s).toList =
      List.replicate (width - s.toList.length) fill ++ s.toList := by
  simp [padLeft, List.leftpad]

end Brainfuck.Text
