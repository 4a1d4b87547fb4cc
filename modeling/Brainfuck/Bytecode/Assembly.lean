import Brainfuck.Bytecode.Op

set_option autoImplicit false

/-! # Assembly with labels

Code is put down item by item. A jump names a label, which may get its place before or after the
jump. Finishing the assembly replaces every named label by the distance from the jump to the
label's place, in the order of the code, and reports the first jump for which that is impossible. -/

namespace Brainfuck

/-- A place in the code that jumps can name before it is known. -/
structure Label where
  index : Nat
deriving DecidableEq, Repr, Inhabited

/-- Why code cannot be assembled. -/
inductive AssemblyError where
  /-- The label does not belong to this assembly. -/
  | unknownLabel (label : Label)
  /-- The label already has a place. -/
  | markedTwice (label : Label)
  /-- A jump names a label that has no place. -/
  | neverMarked (label : Label)
  /-- The distance from the jump at `ip` to `target` is too large for an instruction. -/
  | outOfRange (ip target : Nat)
  /-- The instruction at `ip` names a label and is not a jump. -/
  | notAJump (ip : Nat) (op : Op)
deriving DecidableEq, Repr

namespace AssemblyError

def message : AssemblyError → String
  | unknownLabel label => s!"unknown label {label.index}"
  | markedTwice label => s!"label {label.index} marked twice"
  | neverMarked label => s!"label {label.index} was never marked"
  | outOfRange ip target => s!"jump at {ip} to {target} is out of range"
  | notAJump ip op => s!"fixup at {ip} points at non-jump {op.text}"

end AssemblyError

/-! ## Items -/

/-- One item of code that is being put together. -/
inductive CodeItem where
  /-- An instruction that stays as it is. -/
  | fixed (op : Op)
  /-- An instruction that gets the distance to `label`. -/
  | pending (op : Op) (label : Label)
deriving DecidableEq, Repr

/-- A distance as a jump can hold it; `none` if it needs more than 32 bits. -/
def jumpOffset? (distance : Int) : Option Int32 :=
  if Int32.minValue.toInt ≤ distance ∧ distance ≤ Int32.maxValue.toInt then
    some (Int32.ofInt distance)
  else none

namespace CodeItem

/-- The finished instruction for the item at `ip`, given the places of the labels. -/
def resolve (places : Array (Option Nat)) (ip : Nat) : CodeItem → Except AssemblyError Op
  | fixed op => .ok op
  | pending op label =>
    match places[label.index]?.join with
    | none => .error (.neverMarked label)
    | some target =>
      match jumpOffset? (target - ip) with
      | none => .error (.outOfRange ip target)
      | some offset =>
        match op.withOffset? offset with
        | none => .error (.notAJump ip op)
        | some op => .ok op

@[simp] theorem resolve_fixed (places : Array (Option Nat)) (ip : Nat) (op : Op) :
    (fixed op).resolve places ip = .ok op := rfl

end CodeItem

/-! ## Assemblies -/

/-- Code that is being put together. -/
structure Assembly where
  /-- The items so far, in order. -/
  items : Array CodeItem
  /-- The place of each label handed out so far, if it has one. -/
  places : Array (Option Nat)
deriving Repr

namespace Assembly

def empty : Assembly := { items := #[], places := #[] }

/-- The place of the next item. -/
def position (a : Assembly) : Nat := a.items.size

/-- Puts down an instruction. -/
def emit (a : Assembly) (op : Op) : Assembly :=
  { a with items := a.items.push (.fixed op) }

/-- Puts down the same instruction `n` times. -/
def emitCopies (a : Assembly) (op : Op) (n : Nat) : Assembly :=
  { a with items := a.items ++ Array.replicate n (.fixed op) }

/-- Puts down an instruction that gets the distance to `label` in the end. -/
def emitJump (a : Assembly) (op : Op) (label : Label) : Assembly :=
  { a with items := a.items.push (.pending op label) }

/-- Hands out a new label, which has no place yet. -/
def defineLabel (a : Assembly) : Label × Assembly :=
  (⟨a.places.size⟩, { a with places := a.places.push none })

/-- Gives `label` the place of the next item. -/
def markLabel (a : Assembly) (label : Label) : Except AssemblyError Assembly :=
  match a.places[label.index]? with
  | none => .error (.unknownLabel label)
  | some (some _) => .error (.markedTwice label)
  | some none => .ok { a with places := a.places.setIfInBounds label.index (some a.position) }

/-- The finished code, or the first item that cannot be finished. -/
def finish (a : Assembly) : Except AssemblyError (Array Op) := do
  let ops ← a.items.toList.zipIdx.mapM fun (item, ip) => item.resolve a.places ip
  return ops.toArray

/-! ### What each operation does to the code and to the places -/

@[simp] theorem position_empty : empty.position = 0 := rfl

@[simp] theorem position_emit (a : Assembly) (op : Op) :
    (a.emit op).position = a.position + 1 := by
  simp [emit, position]

@[simp] theorem position_emitCopies (a : Assembly) (op : Op) (n : Nat) :
    (a.emitCopies op n).position = a.position + n := by
  simp [emitCopies, position]

@[simp] theorem position_emitJump (a : Assembly) (op : Op) (label : Label) :
    (a.emitJump op label).position = a.position + 1 := by
  simp [emitJump, position]

@[simp] theorem position_defineLabel (a : Assembly) :
    a.defineLabel.2.position = a.position := rfl

@[simp] theorem places_emit (a : Assembly) (op : Op) : (a.emit op).places = a.places := rfl

@[simp] theorem places_emitCopies (a : Assembly) (op : Op) (n : Nat) :
    (a.emitCopies op n).places = a.places := rfl

@[simp] theorem places_emitJump (a : Assembly) (op : Op) (label : Label) :
    (a.emitJump op label).places = a.places := rfl

@[simp] theorem places_defineLabel (a : Assembly) :
    a.defineLabel.2.places = a.places.push none := rfl

end Assembly

end Brainfuck
