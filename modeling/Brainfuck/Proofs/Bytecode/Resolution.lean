import Brainfuck.Proofs.Bytecode.Generation
import Mathlib.Data.List.Basic
import Mathlib.Data.List.Induction

set_option autoImplicit false

/-! # What becomes of the labels

An assembly is made by calls: labels are handed out and marked, instructions and jumps are put down,
in any order and with any labels, those of other assemblies too. What comes out can be told from the
calls alone. A label has the place of its first mark behind its definition (`AssemblyCall.place?`),
whatever is marked later and whether jumps name it before or after. Each jump gets the distance to
that place (`CodeItem.Becomes`), and the first jump for which there is none is the error
(`CodeItem.Fails`).

The assembly after some calls holds the items that they put down and the places that they gave
(`Assembly.Follows`), which each call keeps true. Finishing then looks at one item after the
other. -/

namespace Brainfuck

/-! ## Calls -/

/-- A call in the making of an assembly. -/
inductive AssemblyCall where
  | defineLabel
  | markLabel (label : Label)
  | emit (op : Op)
  | emitJump (op : Op) (label : Label)
deriving DecidableEq, Repr

namespace AssemblyCall

/-- The item that a call puts down. -/
def item? : AssemblyCall → Option CodeItem
  | emit op => some (.fixed op)
  | emitJump op label => some (.pending op label)
  | defineLabel | markLabel _ => none

/-- The items that the calls put down, in order. -/
def itemsOf (calls : List AssemblyCall) : List CodeItem := calls.filterMap item?

/-- How many labels the calls hand out. -/
def labelCount (calls : List AssemblyCall) : Nat := calls.count defineLabel

/-- The place that call `n` can give to the label: the call has to mark it, and its number has to be
    known by then. -/
def markAt? (calls : List AssemblyCall) (label : Label) (n : Nat) : Option Nat :=
  if calls[n]? = some (markLabel label) ∧ label.index < labelCount (calls.take n) then
    some (itemsOf (calls.take n)).length
  else none

/-- The place of a label: the first that a call can give to it. -/
def place? (calls : List AssemblyCall) (label : Label) : Option Nat :=
  (List.range calls.length).findSome? (markAt? calls label)

theorem itemsOf_append_singleton (calls : List AssemblyCall) (c : AssemblyCall) :
    itemsOf (calls ++ [c]) = itemsOf calls ++ c.item?.toList := by
  rw [itemsOf, List.filterMap_append]
  rcases hc : c.item? with - | item
  · rw [List.filterMap_cons_none hc]
    rfl
  · rw [List.filterMap_cons_some hc]
    rfl

theorem labelCount_append_singleton (calls : List AssemblyCall) (c : AssemblyCall) :
    labelCount (calls ++ [c]) = labelCount calls + if c = defineLabel then 1 else 0 := by
  rw [labelCount, List.count_append, List.count_singleton]
  simp only [beq_iff_eq]
  rfl

/-- A later call gives the label a place only if it has none yet. -/
theorem place?_append_singleton (calls : List AssemblyCall) (c : AssemblyCall) (label : Label) :
    place? (calls ++ [c]) label
      = (place? calls label).or
          (if c = markLabel label ∧ label.index < labelCount calls then
            some (itemsOf calls).length
          else none) := by
  have hearlier : ∀ n ∈ List.range calls.length,
      markAt? (calls ++ [c]) label n = markAt? calls label n := by
    intro n hn
    have hlt := List.mem_range.1 hn
    rw [markAt?, markAt?, List.getElem?_append_left hlt,
      List.take_append_of_le_length (Nat.le_of_lt hlt)]
  have hlast : markAt? (calls ++ [c]) label calls.length
      = if c = markLabel label ∧ label.index < labelCount calls then some (itemsOf calls).length
        else none := by
    unfold markAt?
    simp only [List.getElem?_concat_length, List.take_left, Option.some_inj]
  rw [place?, place?, List.length_append, List.length_singleton, List.range_succ,
    List.findSome?_append, ← List.head?_filterMap, List.filterMap_congr hearlier,
    List.head?_filterMap, List.findSome?_singleton, hlast]

theorem place?_append_of_ne {c : AssemblyCall} {label : Label} (h : c ≠ markLabel label)
    (calls : List AssemblyCall) : place? (calls ++ [c]) label = place? calls label := by
  rw [place?_append_singleton, if_neg (fun hc => h hc.1), Option.or_none]

/-- A mark that comes too early or too late. -/
def MarkFails (calls : List AssemblyCall) (label : Label) : Prop :=
  labelCount calls ≤ label.index ∨ (place? calls label).isSome

/-- Such a mark gives no label a place. -/
theorem MarkFails.place?_append {calls : List AssemblyCall} {label : Label}
    (h : MarkFails calls label) (other : Label) :
    place? (calls ++ [markLabel label]) other = place? calls other := by
  rw [place?_append_singleton]
  by_cases hmark : markLabel label = markLabel other ∧ other.index < labelCount calls
  · obtain rfl := markLabel.inj hmark.1
    rcases h with hearly | hlate
    · omega
    · exact Option.or_of_isSome hlate
  · rw [if_neg hmark, Option.or_none]

end AssemblyCall

open AssemblyCall (itemsOf labelCount place? MarkFails)

/-! ## The assembly after some calls -/

namespace Assembly

/-- Makes a call. A mark that fails is passed over. -/
def perform (a : Assembly) : AssemblyCall → Assembly
  | .defineLabel => a.defineLabel.2
  | .markLabel label => (a.markLabel label).toOption.getD a
  | .emit op => a.emit op
  | .emitJump op label => a.emitJump op label

/-- The assembly that the calls make. -/
def ofCalls (calls : List AssemblyCall) : Assembly := calls.foldl perform empty

/-- The assembly holds what the calls put down and the places that they gave. -/
structure Follows (a : Assembly) (calls : List AssemblyCall) : Prop where
  items : a.items.toList = itemsOf calls
  size : a.places.size = labelCount calls
  places : ∀ label : Label, a.places[label.index]?.join = place? calls label

theorem follows_empty : Follows empty [] where
  items := rfl
  size := rfl
  places := fun _ => rfl

variable {a : Assembly} {calls : List AssemblyCall}

theorem Follows.position_eq (h : a.Follows calls) : a.position = (itemsOf calls).length := by
  rw [← h.items, Array.length_toList]
  rfl

theorem Follows.getElem?_places_of_lt (h : a.Follows calls) {label : Label}
    (hlt : label.index < labelCount calls) :
    a.places[label.index]? = some (place? calls label) := by
  have hsome := Array.getElem?_eq_getElem (h.size ▸ hlt)
  rw [← h.places, hsome]
  rfl

/-! ### Marks -/

theorem Follows.markLabel_of_fails (h : a.Follows calls) {label : Label}
    (hfails : MarkFails calls label) :
    a.markLabel label = .error
      (if labelCount calls ≤ label.index then .unknownLabel label else .markedTwice label) := by
  unfold Assembly.markLabel
  by_cases hearly : labelCount calls ≤ label.index
  · rw [Array.getElem?_eq_none (h.size ▸ hearly), if_pos hearly]
  · obtain ⟨target, htarget⟩ := Option.isSome_iff_exists.1 (hfails.resolve_left hearly)
    rw [h.getElem?_places_of_lt (Nat.lt_of_not_le hearly), htarget, if_neg hearly]

theorem Follows.markLabel_of_not_fails (h : a.Follows calls) {label : Label}
    (hfails : ¬ MarkFails calls label) :
    a.markLabel label = .ok { a with
      places := a.places.setIfInBounds label.index (some (itemsOf calls).length) } := by
  obtain ⟨hlt, hopen⟩ := not_or.1 hfails
  unfold Assembly.markLabel
  rw [h.getElem?_places_of_lt (Nat.lt_of_not_le hlt), Option.not_isSome_iff_eq_none.1 hopen,
    h.position_eq]

/-- A mark that fails leaves everything as it was. -/
theorem Follows.perform_mark_of_fails (h : a.Follows calls) {label : Label}
    (hfails : MarkFails calls label) : a.perform (.markLabel label) = a := by
  rw [perform, h.markLabel_of_fails hfails]
  rfl

/-! ### One call more -/

/-- Neither the items nor the labels become more by a mark. -/
theorem Follows.mark (h : a.Follows calls) (label : Label) :
    (a.perform (.markLabel label)).Follows (calls ++ [.markLabel label]) := by
  have hitems : itemsOf calls = itemsOf (calls ++ [.markLabel label]) := by
    rw [AssemblyCall.itemsOf_append_singleton]
    exact (List.append_nil _).symm
  have hcount : labelCount calls = labelCount (calls ++ [.markLabel label]) := by
    rw [AssemblyCall.labelCount_append_singleton, if_neg (by simp)]
    rfl
  by_cases hfails : MarkFails calls label
  · rw [h.perform_mark_of_fails hfails]
    refine ⟨h.items.trans hitems, h.size.trans hcount, ?_⟩
    intro other
    rw [hfails.place?_append, h.places]
  · obtain ⟨hlt, hopen⟩ := not_or.1 hfails
    have hlt' : label.index < labelCount calls := Nat.lt_of_not_le hlt
    rw [perform, h.markLabel_of_not_fails hfails]
    refine ⟨h.items.trans hitems, ?_, ?_⟩
    · show (a.places.setIfInBounds label.index _).size = _
      rw [Array.size_setIfInBounds, h.size, hcount]
    · intro other
      show (a.places.setIfInBounds label.index (some (itemsOf calls).length))[other.index]?.join = _
      by_cases hsame : label.index = other.index
      · obtain rfl : label = other := congrArg Label.mk hsame
        rw [Array.getElem?_setIfInBounds_self_of_lt (h.size ▸ hlt'),
          AssemblyCall.place?_append_singleton, Option.not_isSome_iff_eq_none.1 hopen,
          if_pos ⟨rfl, hlt'⟩]
        rfl
      · have hne : AssemblyCall.markLabel label ≠ .markLabel other := by
          intro heq
          exact hsame (congrArg Label.index (AssemblyCall.markLabel.inj heq))
        rw [Array.getElem?_setIfInBounds_ne hsame, AssemblyCall.place?_append_of_ne hne, h.places]

theorem Follows.define (h : a.Follows calls) :
    (a.perform .defineLabel).Follows (calls ++ [.defineLabel]) := by
  refine ⟨?_, ?_, ?_⟩
  · rw [AssemblyCall.itemsOf_append_singleton]
    exact h.items.trans (List.append_nil _).symm
  · rw [AssemblyCall.labelCount_append_singleton, if_pos rfl, perform, places_defineLabel,
      Array.size_push, h.size]
  · intro label
    rw [AssemblyCall.place?_append_of_ne (by simp), ← h.places, perform, places_defineLabel,
      Array.getElem?_push]
    -- the new label has no place, and it had none before it was known
    by_cases hnew : label.index = a.places.size
    · rw [if_pos hnew, hnew, Array.getElem?_eq_none (Nat.le_refl _)]
      rfl
    · rw [if_neg hnew]

/-- A call that puts down an item leaves the labels alone. -/
theorem Follows.put (h : a.Follows calls) {c : AssemblyCall} {item : CodeItem}
    (hitem : c.item? = some item) :
    Follows { a with items := a.items.push item } (calls ++ [c]) := by
  have hdefine : c ≠ .defineLabel := by
    rintro rfl
    simp [AssemblyCall.item?] at hitem
  have hmark : ∀ label, c ≠ .markLabel label := by
    rintro label rfl
    simp [AssemblyCall.item?] at hitem
  refine ⟨?_, ?_, ?_⟩
  · rw [AssemblyCall.itemsOf_append_singleton, hitem, Array.toList_push, h.items]
    rfl
  · rw [AssemblyCall.labelCount_append_singleton, if_neg hdefine]
    exact h.size
  · intro label
    rw [AssemblyCall.place?_append_of_ne (hmark label)]
    exact h.places label

theorem Follows.perform (h : a.Follows calls) (c : AssemblyCall) :
    (a.perform c).Follows (calls ++ [c]) := by
  cases c with
  | defineLabel => exact h.define
  | markLabel label => exact h.mark label
  | emit op => exact h.put rfl
  | emitJump op label => exact h.put rfl

theorem ofCalls_append_singleton (calls : List AssemblyCall) (c : AssemblyCall) :
    ofCalls (calls ++ [c]) = (ofCalls calls).perform c := by
  rw [ofCalls, List.foldl_append]
  rfl

theorem follows_ofCalls (calls : List AssemblyCall) : (ofCalls calls).Follows calls := by
  induction calls using List.reverseRecOn with
  | nil => exact follows_empty
  | append_singleton calls c ih =>
      rw [ofCalls_append_singleton]
      exact ih.perform c

end Assembly

/-! ## Single items -/

namespace CodeItem

/-- The distances that a jump can hold. -/
def Fits (distance : Int) : Prop := -2147483648 ≤ distance ∧ distance < 2147483648

/-- What the item at `ip` becomes, given the places of the labels: an instruction stays as it is,
    and a jump stays of its kind and gets the distance from itself to the place of its label. -/
inductive Becomes (place : Label → Option Nat) (ip : Nat) : CodeItem → Op → Prop
  | fixed (op : Op) : Becomes place ip (.fixed op) op
  | jump {label : Label} {target : Nat} {old offset : Int32} (hplace : place label = some target)
      (hoffset : offset.toInt = (target : Int) - ip) :
      Becomes place ip (.pending (.jump old) label) (.jump offset)
  | jumpIfZero {label : Label} {target : Nat} {old offset : Int32}
      (hplace : place label = some target) (hoffset : offset.toInt = (target : Int) - ip) :
      Becomes place ip (.pending (.jumpIfZero old) label) (.jumpIfZero offset)

/-- Why the item at `ip` cannot be finished: its label has no place, or the place is too far away,
    or else it is no jump. -/
inductive Fails (place : Label → Option Nat) (ip : Nat) : CodeItem → AssemblyError → Prop
  | neverMarked {op : Op} {label : Label} (hplace : place label = none) :
      Fails place ip (.pending op label) (.neverMarked label)
  | outOfRange {op : Op} {label : Label} {target : Nat} (hplace : place label = some target)
      (hfits : ¬ Fits ((target : Int) - ip)) :
      Fails place ip (.pending op label) (.outOfRange ip target)
  | notAJump {op : Op} {label : Label} {target : Nat} (hplace : place label = some target)
      (hfits : Fits ((target : Int) - ip)) (hop : op.offset? = none) :
      Fails place ip (.pending op label) (.notAJump ip op)

/-- What has to hold for `op` at `ip` to get the distance to `label`. -/
def Resolvable (place : Label → Option Nat) (ip : Nat) (op : Op) (label : Label) : Prop :=
  ∃ target, place label = some target ∧ Fits ((target : Int) - ip) ∧ op.offset?.isSome

theorem fits_toInt (offset : Int32) : Fits offset.toInt :=
  ⟨offset.le_toInt, offset.toInt_lt⟩

section
variable {place : Label → Option Nat} {ip : Nat}

theorem exists_becomes_iff {op : Op} {label : Label} :
    (∃ op', Becomes place ip (.pending op label) op') ↔ Resolvable place ip op label := by
  constructor
  · rintro ⟨op', hbecomes⟩
    cases hbecomes with
    | jump hplace hoffset => exact ⟨_, hplace, hoffset ▸ fits_toInt _, rfl⟩
    | jumpIfZero hplace hoffset => exact ⟨_, hplace, hoffset ▸ fits_toInt _, rfl⟩
  · rintro ⟨target, hplace, hfits, hjump⟩
    have hoffset : (Int32.ofInt ((target : Int) - ip)).toInt = (target : Int) - ip :=
      Int32.toInt_ofInt_of_le hfits.1 hfits.2
    cases op with
    | jump old => exact ⟨_, .jump hplace hoffset⟩
    | jumpIfZero old => exact ⟨_, .jumpIfZero hplace hoffset⟩
    | _ => simp [Op.offset?] at hjump

theorem becomes_or_fails (place : Label → Option Nat) (ip : Nat) (item : CodeItem) :
    (∃ op, Becomes place ip item op) ∨ ∃ e, Fails place ip item e := by
  rcases item with op | ⟨op, label⟩
  · exact .inl ⟨op, .fixed op⟩
  · rw [exists_becomes_iff]
    rcases hplace : place label with - | target
    · exact .inr ⟨_, .neverMarked hplace⟩
    · by_cases hfits : Fits ((target : Int) - ip)
      · rcases hop : op.offset? with - | old
        · exact .inr ⟨_, .notAJump hplace hfits hop⟩
        · exact .inl ⟨target, hplace, hfits, by rw [hop]; rfl⟩
      · exact .inr ⟨_, .outOfRange hplace hfits⟩

theorem jumpOffset?_of_fits {distance : Int} (h : Fits distance) :
    jumpOffset? distance = some (Int32.ofInt distance) :=
  jumpOffset?_eq_some h.1 h.2

theorem jumpOffset?_of_not_fits {distance : Int} (h : ¬ Fits distance) :
    jumpOffset? distance = none := by
  have hmin : Int32.minValue.toInt = -2147483648 := by decide
  have hmax : Int32.maxValue.toInt = 2147483647 := by decide
  rw [jumpOffset?, hmin, hmax, if_neg]
  rintro ⟨hlow, hhigh⟩
  exact h ⟨hlow, by omega⟩

theorem jumpOffset?_toInt (offset : Int32) : jumpOffset? offset.toInt = some offset := by
  rw [jumpOffset?_of_fits (fits_toInt offset), Int32.ofInt_toInt]

variable {places : Array (Option Nat)}
  (hplaces : ∀ label : Label, places[label.index]?.join = place label)
include hplaces

theorem Becomes.resolve {item : CodeItem} {op : Op} (h : Becomes place ip item op) :
    item.resolve places ip = .ok op := by
  cases h with
  | fixed => rfl
  | jump hplace hoffset =>
      simp only [CodeItem.resolve, hplaces, hplace, ← hoffset, jumpOffset?_toInt, Op.withOffset?]
  | jumpIfZero hplace hoffset =>
      simp only [CodeItem.resolve, hplaces, hplace, ← hoffset, jumpOffset?_toInt, Op.withOffset?]

theorem Fails.resolve {item : CodeItem} {e : AssemblyError} (h : Fails place ip item e) :
    item.resolve places ip = .error e := by
  cases h with
  | neverMarked hplace => simp only [CodeItem.resolve, hplaces, hplace]
  | outOfRange hplace hfits =>
      simp only [CodeItem.resolve, hplaces, hplace, jumpOffset?_of_not_fits hfits]
  | @notAJump op _ _ hplace hfits hop =>
      have hnone : ∀ offset, op.withOffset? offset = none := by
        intro offset
        rw [← Option.not_isSome_iff_eq_none, Op.isSome_withOffset?, hop]
        simp
      simp only [CodeItem.resolve, hplaces, hplace, jumpOffset?_of_fits hfits, hnone]

end

/-! ## All items -/

/-- The instructions are what the items become, one for each; the first item is at `start`. -/
structure Finished (place : Label → Option Nat) (start : Nat) (items : List CodeItem)
    (ops : List Op) : Prop where
  length_eq : ops.length = items.length
  becomes : ∀ (i : Nat) (item : CodeItem), items[i]? = some item →
    ∃ op, ops[i]? = some op ∧ Becomes place (start + i) item op

/-- The item `i` is the first that cannot be finished, for the reason `e`. -/
structure FirstFailure (place : Label → Option Nat) (start : Nat) (items : List CodeItem)
    (i : Nat) (e : AssemblyError) : Prop where
  fails : ∃ item, items[i]? = some item ∧ Fails place (start + i) item e
  earlier : ∀ (j : Nat) (item : CodeItem), j < i → items[j]? = some item →
    ∃ op, Becomes place (start + j) item op

theorem resolveAll_cons (places : Array (Option Nat)) (start : Nat) (item : CodeItem)
    (items : List CodeItem) :
    resolveAll places start (item :: items)
      = (do return (← item.resolve places start) :: (← resolveAll places (start + 1) items)) := by
  rw [resolveAll, List.zipIdx_cons, List.mapM_cons]
  rfl

section
variable {place : Label → Option Nat} {places : Array (Option Nat)}
  (hplaces : ∀ label : Label, places[label.index]?.join = place label)
include hplaces

/-- Either all items can be finished, or the first one that cannot is the error. -/
theorem resolveAll_cases (items : List CodeItem) :
    ∀ (start : Nat),
      (∃ ops, resolveAll places start items = .ok ops ∧ Finished place start items ops) ∨
      ∃ i e, resolveAll places start items = .error e ∧ FirstFailure place start items i e := by
  induction items with
  | nil =>
      intro start
      exact .inl ⟨[], rfl, rfl, fun i item hitem => by simp at hitem⟩
  | cons item items ih =>
      intro start
      have hstart : ∀ i, start + (i + 1) = start + 1 + i := fun i => by omega
      rw [resolveAll_cons]
      rcases becomes_or_fails place start item with ⟨op, hitem⟩ | ⟨e, hitem⟩
      · rw [hitem.resolve hplaces]
        rcases ih (start + 1) with ⟨ops, hops, hfinished⟩ | ⟨i, e, herror, hfirst⟩
        · rw [hops]
          refine .inl ⟨op :: ops, rfl, congrArg (· + 1) hfinished.length_eq, ?_⟩
          rintro (- | i) x hx
          · obtain rfl := Option.some.inj hx
            exact ⟨op, rfl, hitem⟩
          · rw [hstart]
            exact hfinished.becomes i x hx
        · rw [herror]
          obtain ⟨x, hx, hfails⟩ := hfirst.fails
          refine .inr ⟨i + 1, e, rfl, ⟨x, hx, hstart i ▸ hfails⟩, ?_⟩
          rintro (- | j) y hj hy
          · obtain rfl := Option.some.inj hy
            exact ⟨op, hitem⟩
          · rw [hstart]
            exact hfirst.earlier j y (by omega) hy
      · rw [hitem.resolve hplaces]
        refine .inr ⟨0, e, rfl, ⟨item, rfl, hitem⟩, ?_⟩
        intro j _ hj
        exact absurd hj (Nat.not_lt_zero j)

/-- No item both can and cannot be finished. -/
theorem Becomes.not_fails {ip : Nat} {item : CodeItem} {op : Op} (h : Becomes place ip item op)
    (e : AssemblyError) : ¬ Fails place ip item e := by
  intro hfails
  have heq := (h.resolve hplaces).symm.trans (hfails.resolve hplaces)
  cases heq

/-- There is at most one first failure. -/
theorem FirstFailure.unique {start : Nat} {items : List CodeItem} {i j : Nat}
    {e f : AssemblyError} (hi : FirstFailure place start items i e)
    (hj : FirstFailure place start items j f) : e = f := by
  obtain ⟨x, hx, hxe⟩ := hi.fails
  obtain ⟨y, hy, hyf⟩ := hj.fails
  rcases Nat.lt_trichotomy i j with hlt | rfl | hlt
  · obtain ⟨op, hop⟩ := hj.earlier i x hlt hx
    exact absurd hxe (hop.not_fails hplaces e)
  · obtain rfl := Option.some.inj (hx.symm.trans hy)
    have heq := (hxe.resolve hplaces).symm.trans (hyf.resolve hplaces)
    exact Except.error.inj heq
  · obtain ⟨op, hop⟩ := hi.earlier j y hlt hy
    exact absurd hyf (hop.not_fails hplaces f)

/-- Where one item fails, not all are finished. -/
theorem Finished.not_firstFailure {start : Nat} {items : List CodeItem} {ops : List Op}
    (h : Finished place start items ops) (i : Nat) (e : AssemblyError) :
    ¬ FirstFailure place start items i e := by
  intro hfirst
  obtain ⟨item, hitem, hfails⟩ := hfirst.fails
  obtain ⟨op, -, hop⟩ := h.becomes i item hitem
  exact hop.not_fails hplaces e hfails

end

end CodeItem

/-! ## The finished code -/

namespace Assembly

open CodeItem (Finished FirstFailure Resolvable)

theorem finish_eq (a : Assembly) :
    a.finish = (CodeItem.resolveAll a.places 0 a.items.toList).map List.toArray := by
  unfold finish CodeItem.resolveAll
  rcases a.items.toList.zipIdx.mapM _ with e | ops <;> rfl

variable {a : Assembly} {calls : List AssemblyCall}

theorem Follows.finish_cases (h : a.Follows calls) :
    (∃ ops, a.finish = .ok ops ∧ Finished (place? calls) 0 (itemsOf calls) ops.toList) ∨
    ∃ ip e, a.finish = .error e ∧ FirstFailure (place? calls) 0 (itemsOf calls) ip e := by
  rw [finish_eq, h.items]
  rcases CodeItem.resolveAll_cases h.places (itemsOf calls) 0 with
    ⟨ops, hops, hfinished⟩ | ⟨ip, e, herror, hfirst⟩
  · rw [hops]
    exact .inl ⟨ops.toArray, rfl, hfinished⟩
  · rw [herror]
    exact .inr ⟨ip, e, rfl, hfirst⟩

/-- All items are finished if and only if the jumps are. -/
theorem Follows.exists_finish_iff (h : a.Follows calls) :
    (∃ ops, a.finish = .ok ops) ↔
      ∀ ip op label, (itemsOf calls)[ip]? = some (.pending op label) →
        Resolvable (place? calls) ip op label := by
  rcases h.finish_cases with ⟨ops, hops, hfinished⟩ | ⟨ip, e, herror, hfirst⟩
  · refine iff_of_true ⟨ops, hops⟩ ?_
    intro ip op label hitem
    obtain ⟨op', -, hbecomes⟩ := hfinished.becomes ip _ hitem
    rw [Nat.zero_add] at hbecomes
    exact CodeItem.exists_becomes_iff.1 ⟨op', hbecomes⟩
  · refine iff_of_false ?_ ?_
    · rintro ⟨ops, hops⟩
      rw [herror] at hops
      cases hops
    · intro hall
      obtain ⟨item, hitem, hfails⟩ := hfirst.fails
      rw [Nat.zero_add] at hfails
      rcases item with op | ⟨op, label⟩
      · cases hfails
      · obtain ⟨op', hbecomes⟩ := CodeItem.exists_becomes_iff.2 (hall ip op label hitem)
        exact hbecomes.not_fails h.places e hfails

theorem Follows.finish_eq_error_iff (h : a.Follows calls) (e : AssemblyError) :
    a.finish = .error e ↔ ∃ ip, FirstFailure (place? calls) 0 (itemsOf calls) ip e := by
  rcases h.finish_cases with ⟨ops, hops, hfinished⟩ | ⟨ip, f, herror, hfirst⟩
  · refine iff_of_false ?_ ?_
    · rw [hops]
      exact nofun
    · rintro ⟨ip, hfirst⟩
      exact hfinished.not_firstFailure h.places ip e hfirst
  · rw [herror]
    constructor
    · rintro hf
      obtain rfl := Except.error.inj hf
      exact ⟨ip, hfirst⟩
    · rintro ⟨ip', hfirst'⟩
      exact congrArg Except.error (hfirst.unique h.places hfirst')

/-- The calls decide what the finished code is. It exists if every jump names a label that has a
    place within reach; it then has an instruction for each item that was put down, in order, with
    the distances filled in, and otherwise the first item that fails is the error. A label is marked
    once, after it was handed out, and a mark that fails might as well not have been made. -/
theorem finish_ofCalls_exact (calls : List AssemblyCall) :
    ((∃ ops, (ofCalls calls).finish = .ok ops) ↔
      ∀ ip op label, (itemsOf calls)[ip]? = some (.pending op label) →
        Resolvable (place? calls) ip op label) ∧
    (∀ ops, (ofCalls calls).finish = .ok ops →
      Finished (place? calls) 0 (itemsOf calls) ops.toList) ∧
    (∀ e, (ofCalls calls).finish = .error e ↔
      ∃ ip, FirstFailure (place? calls) 0 (itemsOf calls) ip e) ∧
    (ofCalls calls).defineLabel.1 = ⟨labelCount calls⟩ ∧
    ∀ label, ((∃ e, (ofCalls calls).markLabel label = .error e) ↔ MarkFails calls label) ∧
      (MarkFails calls label →
        ∀ rest, ofCalls (calls ++ .markLabel label :: rest) = ofCalls (calls ++ rest)) := by
  have h := follows_ofCalls calls
  refine ⟨h.exists_finish_iff, ?_, h.finish_eq_error_iff, congrArg Label.mk h.size, ?_⟩
  · intro ops hops
    rcases h.finish_cases with ⟨ops', hops', hfinished⟩ | ⟨ip, e, herror, -⟩
    · obtain rfl := Except.ok.inj (hops.symm.trans hops')
      exact hfinished
    · rw [herror] at hops
      cases hops
  · intro label
    refine ⟨⟨?_, fun hfails => ⟨_, h.markLabel_of_fails hfails⟩⟩, ?_⟩
    · rintro ⟨e, he⟩
      by_contra hfails
      rw [h.markLabel_of_not_fails hfails] at he
      cases he
    · intro hfails rest
      have hsame := h.perform_mark_of_fails hfails
      unfold ofCalls at hsame ⊢
      rw [List.foldl_append, List.foldl_append, List.foldl_cons, hsame]

end Assembly

end Brainfuck
