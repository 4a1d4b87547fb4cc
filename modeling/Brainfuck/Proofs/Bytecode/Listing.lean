import Brainfuck.Bytecode.Listing
import Brainfuck.Proofs.Text.Lines

set_option autoImplicit false

/-! # What a listing says

A listing is a text of lines: nine of them for the heading, then for each instruction a line that
begins with its place, with a rule above it if it is a target, and an empty one at the end. Since
none of the lines has a newline inside it, they can be told apart again, and since the lines of
instructions are the only ones that begin with a digit, these can be picked out.

A line of an instruction names its kind in a column of fixed width, and then shows its argument in
decimal. So no two programs have the same listing. -/

namespace Brainfuck

open Text (OneLine)

/-! ## The text of an instruction -/

namespace Op

/-- The name of an instruction in its column. -/
def nameColumn : Op → String
  | addCell _ => "ADD_CELL    "
  | subCell _ => "SUB_CELL    "
  | moveRight _ => "MOVE_RIGHT  "
  | moveLeft _ => "MOVE_LEFT   "
  | write => "WRITE       "
  | read => "READ        "
  | jump _ => "JUMP        "
  | jumpIfZero _ => "JUMP_ZERO   "
  | halt => "RETURN"

/-- A jump behind its name. -/
def jumpOperand (ip : Nat) (offset : Int32) : String :=
  Text.signed offset.toInt ++ (if offset.toInt < 0 then " ↑" else " ↓") ++
    (" (→ " ++ Text.zeroPadded 4 (targetWord ip offset) ++ ")")

/-- What stands behind the name of the instruction at `ip`. -/
def operand (ip : Nat) : Op → String
  | addCell n | subCell n => toString n.toNat
  | moveRight n | moveLeft n => toString n.toNat
  | write => "; out(memory[ptr])"
  | read => "; memory[ptr] = in() & 0xFF"
  | jump offset | jumpIfZero offset => jumpOperand ip offset
  | halt => ""

theorem jumpLine_eq (name : String) (ip : Nat) (offset : Int32) :
    jumpLine name ip offset = Text.padRight 11 name ++ " " ++ jumpOperand ip offset := by
  show Text.padRight 11 name ++ " " ++ Text.signed offset.toInt ++ " " ++
    (if offset.toInt < 0 then "↑" else "↓") ++ " (→ " ++
    Text.zeroPadded 4 (targetWord ip offset) ++ ")" = _
  apply String.toList_inj.1
  unfold jumpOperand
  split <;> simp

theorem listingText_eq (ip : Nat) (op : Op) :
    op.listingText ip = op.nameColumn ++ op.operand ip := by
  cases op with
  | jump offset => exact jumpLine_eq "JUMP" ip offset
  | jumpIfZero offset => exact jumpLine_eq "JUMP_ZERO" ip offset
  | halt => exact String.append_empty.symm
  | _ => rfl

/-- The name ends at the twelfth character at the latest. -/
theorem take_listingText (ip : Nat) (op : Op) :
    (op.listingText ip).toList.take 12 = op.nameColumn.toList ∧
    (op.listingText ip).toList.drop 12 = (op.operand ip).toList := by
  rw [listingText_eq, String.toList_append]
  cases op with
  | halt => simp [nameColumn, operand]
  | _ => exact ⟨List.take_left' (by simp [nameColumn]), List.drop_left' (by simp [nameColumn])⟩

theorem oneLine_jumpOperand (ip : Nat) (offset : Int32) : OneLine (jumpOperand ip offset) := by
  have harrow : OneLine (if offset.toInt < 0 then " ↑" else " ↓") := by split <;> decide
  simp only [jumpOperand, Text.oneLine_append]
  exact ⟨⟨Text.oneLine_signed _, harrow⟩, ⟨by decide, Text.oneLine_zeroPadded 4 _⟩, by decide⟩

theorem oneLine_listingText (ip : Nat) (op : Op) : OneLine (op.listingText ip) := by
  rw [listingText_eq, Text.oneLine_append]
  constructor
  · cases op <;> simp [nameColumn, OneLine]
  · cases op with
    | jump offset => exact oneLine_jumpOperand ip offset
    | jumpIfZero offset => exact oneLine_jumpOperand ip offset
    | write => simp [operand, OneLine]
    | read => simp [operand, OneLine]
    | halt => simp [operand, OneLine]
    | _ => exact Text.oneLine_decimal _

/-- The distance ends at the first blank. -/
theorem jumpOperand_injective (ip : Nat) : Function.Injective (jumpOperand ip) := by
  have hsplit : ∀ offset, ∃ rest,
      (jumpOperand ip offset).toList = (Text.signed offset.toInt).toList ++ ' ' :: rest := by
    intro offset
    unfold jumpOperand
    split
    · exact ⟨'↑' :: _, by simp; rfl⟩
    · exact ⟨'↓' :: _, by simp; rfl⟩
  intro offset offset' h
  obtain ⟨rest, hrest⟩ := hsplit offset
  obtain ⟨rest', hrest'⟩ := hsplit offset'
  rw [h, hrest'] at hrest
  have hblank : ∀ n, ' ' ∉ (Text.signed n).toList :=
    fun n => Text.not_mem_signed (by decide) (by decide) (by decide)
  have hsigned := (Text.eq_of_append_cons (hblank _) (hblank _) hrest).1
  exact Int32.toInt_inj.1 (Text.signed_injective hsigned.symm)

/-- An instruction is known from its text. -/
theorem listingText_injective (ip : Nat) : Function.Injective (listingText ip) := by
  intro op op' h
  obtain ⟨hname, hoperand⟩ := take_listingText ip op
  obtain ⟨hname', hoperand'⟩ := take_listingText ip op'
  rw [h, hname', String.toList_inj] at hname
  rw [h, hoperand', String.toList_inj] at hoperand
  -- two instructions of different kinds differ in the name
  cases op <;> cases op' <;> simp only [nameColumn, String.reduceEq] at hname
  case addCell.addCell => rw [UInt8.toNat_inj.1 (Text.decimal_injective hoperand)]
  case subCell.subCell => rw [UInt8.toNat_inj.1 (Text.decimal_injective hoperand)]
  case moveRight.moveRight => rw [UInt64.toNat_inj.1 (Text.decimal_injective hoperand)]
  case moveLeft.moveLeft => rw [UInt64.toNat_inj.1 (Text.decimal_injective hoperand)]
  case jump.jump => rw [jumpOperand_injective ip hoperand]
  case jumpIfZero.jumpIfZero => rw [jumpOperand_injective ip hoperand]
  all_goals rfl

end Op

/-! ## The lines of the instructions -/

namespace Listing

/-- The rule above a target, as a line. -/
def ruleLine : String := "      ┌──────────────────────────────────"

theorem toList_ruleLine :
    ruleLine.toList = List.replicate 6 ' ' ++ '┌' :: List.replicate 34 '─' :=
  String.toList_ofList

theorem targetRule_eq : targetRule = ruleLine ++ "\n" := by
  rw [← String.toList_inj, String.toList_append, toList_ruleLine]
  exact String.toList_ofList

/-- The line of the instruction at `ip`, which begins with its place. -/
def instructionLine (marked : Bool) (ip : Nat) (op : Op) : String :=
  Text.zeroPadded 4 ip ++ (if marked then " ► " else "   ") ++ op.listingText ip

/-- The lines for the instruction at `ip`, with the rule above it if it is marked. -/
def entry (marked : Bool) (ip : Nat) (op : Op) : List String :=
  if marked then [ruleLine, instructionLine marked ip op] else [instructionLine marked ip op]

/-- The lines for all instructions, of which those at the marked places are marked. -/
def entries (marked : Nat → Bool) (code : List Op) : List String :=
  code.zipIdx.flatMap fun (op, ip) => entry (marked ip) ip op

/-- The line of an instruction is known by the digit with which it begins. -/
def isInstruction (line : String) : Bool := line.toList.head?.any Char.isDigit

theorem line_eq_unlines (targets : List Nat) (ip : Nat) (op : Op) :
    line targets ip op = Text.unlines (entry (targets.contains ip) ip op) := by
  show (if targets.contains ip then targetRule else "") ++ Text.zeroPadded 4 ip ++ " " ++
    (if targets.contains ip then "► " else "  ") ++ op.listingText ip ++ "\n" = _
  rw [targetRule_eq]
  apply String.toList_inj.1
  cases targets.contains ip <;> simp [entry, instructionLine, Text.unlines]

theorem ops_eq_unlines (code : List Op) :
    ops code = Text.unlines (entries (targets code).contains code) := by
  have hfold := Text.foldl_append_unlines
    (fun x : Op × Nat => line_eq_unlines (targets code) x.2 x.1) code.zipIdx ""
  rwa [String.empty_append] at hfold

theorem oneLine_instructionLine (marked : Bool) (ip : Nat) (op : Op) :
    OneLine (instructionLine marked ip op) := by
  have hmark : OneLine (if marked then " ► " else "   ") := by cases marked <;> decide
  simp only [instructionLine, Text.oneLine_append]
  exact ⟨⟨Text.oneLine_zeroPadded 4 ip, hmark⟩, Op.oneLine_listingText ip op⟩

theorem oneLine_entry (marked : Bool) (ip : Nat) (op : Op) :
    ∀ l ∈ entry marked ip op, OneLine l := by
  have hrule : OneLine ruleLine := by
    rw [OneLine, toList_ruleLine]
    decide
  have hline := oneLine_instructionLine marked ip op
  unfold entry
  split <;> simp [hrule, hline]

theorem oneLine_entries (marked : Nat → Bool) (code : List Op) :
    ∀ l ∈ entries marked code, OneLine l := by
  intro l hl
  obtain ⟨⟨op, ip⟩, -, hentry⟩ := List.mem_flatMap.1 hl
  exact oneLine_entry (marked ip) ip op l hentry

theorem isInstruction_instructionLine (marked : Bool) (ip : Nat) (op : Op) :
    isInstruction (instructionLine marked ip op) = true := by
  obtain ⟨c, digits, hplace⟩ := List.exists_cons_of_ne_nil (Text.zeroPadded_ne_nil 4 ip)
  have hdigit : c.isDigit = true := Text.isDigit_of_mem_zeroPadded (hplace ▸ List.mem_cons_self)
  simp [isInstruction, instructionLine, hplace, hdigit]

/-- Each instruction has one line of its own, whether it is marked or not. -/
theorem filter_isInstruction_entries (marked : Nat → Bool) (code : List Op) :
    (entries marked code).filter isInstruction =
      code.zipIdx.map fun (op, ip) => instructionLine (marked ip) ip op := by
  have hrule : isInstruction ruleLine = false := by
    rw [isInstruction, toList_ruleLine]
    decide
  have hentry : ∀ marked ip op,
      (entry marked ip op).filter isInstruction = [instructionLine marked ip op] := by
    intro marked ip op
    have hline := isInstruction_instructionLine marked ip op
    unfold entry
    split <;> simp [hrule, hline]
  simp only [entries, List.filter_flatMap, hentry]
  exact List.map_eq_flatMap.symm

/-- The lines that a list of instructions is shown in. -/
theorem lines_ops (code : List Op) :
    Text.lines (ops code) = entries (targets code).contains code ++ [""] := by
  rw [ops_eq_unlines]
  exact Text.lines_unlines (oneLine_entries _ code)

/-! ## What the lines say -/

theorem instructionLine_inj {marked marked' : Bool} {ip : Nat} {op op' : Op}
    (h : instructionLine marked ip op = instructionLine marked' ip op') : op = op' := by
  have hlist := congrArg String.toList h
  simp only [instructionLine, String.toList_append, List.append_assoc] at hlist
  -- the mark is as wide as the blanks that stand for it
  have hwidth : (if marked then " ► " else "   ").toList.length
      = (if marked' then " ► " else "   ").toList.length := by
    cases marked <;> cases marked' <;> decide
  have htext := (List.append_inj (List.append_cancel_left hlist) hwidth).2
  exact Op.listingText_injective ip (String.toList_inj.1 htext)

theorem instructionLines_inj {marked marked' : Nat → Bool} {code code' : List Op} {start : Nat}
    (h : ((code.zipIdx start).map fun (op, ip) => instructionLine (marked ip) ip op) =
      (code'.zipIdx start).map fun (op, ip) => instructionLine (marked' ip) ip op) :
    code = code' := by
  induction code generalizing code' start with
  | nil =>
      rcases code' with - | ⟨op', code'⟩
      · rfl
      · contradiction
  | cons op code ih =>
      rcases code' with - | ⟨op', code'⟩
      · contradiction
      · simp only [List.zipIdx_cons, List.map_cons, List.cons.injEq] at h
        rw [instructionLine_inj h.1, ih h.2]

/-- The instructions are known from the lines in which they are shown, whatever is marked. -/
theorem entries_inj {marked marked' : Nat → Bool} {code code' : List Op}
    (h : entries marked code = entries marked' code') : code = code' := by
  have hlines := congrArg (List.filter isInstruction) h
  rw [filter_isInstruction_entries, filter_isInstruction_entries] at hlines
  exact instructionLines_inj hlines

end Listing

/-! ## The whole listing -/

namespace Program

/-- How the memory is declared in a listing. -/
def memoryLine (p : Program) : String :=
  "memory   " ++ toString p.memorySize.toNat ++
    (if p.boundsCheck then " cells (bounds checked)" else " cells")

/-- How the start of the pointer is declared in a listing. -/
def pointerLine (p : Program) : String := "ptr      " ++ toString p.pointerStart.toNat

/-- The rule around the heading of the code, as a line. -/
def headingRuleLine : String := "════════════════════════════════════════"

theorem toList_headingRuleLine : headingRuleLine.toList = List.replicate 40 '═' :=
  String.toList_ofList

theorem headingRule_eq : Listing.headingRule = headingRuleLine ++ "\n" := by
  rw [← String.toList_inj, String.toList_append, toList_headingRuleLine]
  exact String.toList_ofList

/-- The lines in front of the instructions. -/
def headingLines (p : Program) : List String :=
  ["=== BYTECODE PROGRAM ===", "", p.memoryLine, p.pointerLine, "", headingRuleLine, " main",
    " " ++ toString p.ops.size ++ " instructions", headingRuleLine]

/-- All lines of a listing. -/
def listingLines (p : Program) : List String :=
  p.headingLines ++
    (Listing.entries (Listing.targets p.ops.toList).contains p.ops.toList ++ [""])

theorem listing_eq_unlines (p : Program) : p.listing = Text.unlines p.listingLines := by
  rw [listingLines, Text.unlines_append, Text.unlines_append, ← Listing.ops_eq_unlines]
  show "=== BYTECODE PROGRAM ===\n\n" ++
    ("memory   " ++ toString p.memorySize.toNat ++ " cells" ++
      (if p.boundsCheck then " (bounds checked)" else "") ++ "\n") ++
    ("ptr      " ++ toString p.pointerStart.toNat ++ "\n\n") ++ Listing.headingRule ++
    (" main\n " ++ toString p.ops.size ++ " instructions\n") ++ Listing.headingRule ++
    Listing.ops p.ops.toList ++ "\n" = _
  rw [headingRule_eq]
  apply String.toList_inj.1
  cases hcheck : p.boundsCheck <;>
    simp [headingLines, memoryLine, pointerLine, Text.unlines, hcheck]

theorem oneLine_headingLines (p : Program) : ∀ l ∈ p.headingLines, OneLine l := by
  have hmemory : OneLine p.memoryLine := by
    have hcells : OneLine (if p.boundsCheck then " cells (bounds checked)" else " cells") := by
      split <;> decide
    simp only [memoryLine, Text.oneLine_append]
    exact ⟨⟨by decide, Text.oneLine_decimal _⟩, hcells⟩
  have hpointer : OneLine p.pointerLine :=
    (Text.oneLine_append _ _).2 ⟨by decide, Text.oneLine_decimal _⟩
  have hcount : OneLine (" " ++ toString p.ops.size ++ " instructions") := by
    simp only [Text.oneLine_append]
    exact ⟨⟨by decide, Text.oneLine_decimal _⟩, by decide⟩
  have hrule : OneLine headingRuleLine := by
    rw [OneLine, toList_headingRuleLine]
    decide
  simp only [headingLines, List.forall_mem_cons]
  exact ⟨by decide, by decide, hmemory, hpointer, by decide, hrule, by decide, hcount, hrule,
    List.forall_mem_nil _⟩

theorem oneLine_listingLines (p : Program) : ∀ l ∈ p.listingLines, OneLine l := by
  simp only [listingLines, List.forall_mem_append, List.forall_mem_singleton]
  exact ⟨oneLine_headingLines p, Listing.oneLine_entries _ _, by decide⟩

/-! ### What the heading says -/

/-- The number of cells ends at the first blank behind it. -/
theorem memoryLine_inj {p q : Program} (h : p.memoryLine = q.memoryLine) :
    p.memorySize = q.memorySize ∧ p.boundsCheck = q.boundsCheck := by
  have hsplit : ∀ r : Program, r.memoryLine.toList = "memory   ".toList ++
      ((toString r.memorySize.toNat).toList ++
        ' ' :: (if r.boundsCheck then "cells (bounds checked)" else "cells").toList) := by
    intro r
    unfold memoryLine
    split <;> simp
  have hblank : ∀ n : Nat, ' ' ∉ (toString n).toList := fun n =>
    Text.not_mem_of_isDigit_eq_false (fun _ => Text.isDigit_of_mem_decimal) (by decide)
  have hlist := congrArg String.toList h
  rw [hsplit, hsplit] at hlist
  obtain ⟨hsize, hcells⟩ :=
    Text.eq_of_append_cons (hblank _) (hblank _) (List.append_cancel_left hlist)
  refine ⟨UInt64.toNat_inj.1 (Text.decimal_injective (String.toList_inj.1 hsize)), ?_⟩
  cases hp : p.boundsCheck <;> cases hq : q.boundsCheck <;> simp [hp, hq] at hcells ⊢

theorem pointerLine_inj {p q : Program} (h : p.pointerLine = q.pointerLine) :
    p.pointerStart = q.pointerStart := by
  have hlist := congrArg String.toList h
  simp only [pointerLine, String.toList_append] at hlist
  have hstart := String.toList_inj.1 (List.append_cancel_left hlist)
  exact UInt64.toNat_inj.1 (Text.decimal_injective hstart)

/-- A listing loses nothing: no two programs have the same one. -/
theorem listing_injective : Function.Injective listing := by
  intro p q h
  rw [listing_eq_unlines, listing_eq_unlines] at h
  have hlines := Text.unlines_inj (oneLine_listingLines p) (oneLine_listingLines q) h
  have hlength : p.headingLines.length = q.headingLines.length := by
    simp only [headingLines, List.length_cons]
  obtain ⟨hheading, hrest⟩ := List.append_inj hlines hlength
  simp only [headingLines, List.cons.injEq] at hheading
  obtain ⟨-, -, hmemory, hpointer, -⟩ := hheading
  obtain ⟨hsize, hcheck⟩ := memoryLine_inj hmemory
  have hops := Listing.entries_inj (List.append_cancel_right hrest)
  exact Program.ext hsize (pointerLine_inj hpointer) hcheck (Array.toList_inj.1 hops)

end Program

end Brainfuck
