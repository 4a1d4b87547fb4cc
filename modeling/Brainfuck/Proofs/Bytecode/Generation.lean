import Brainfuck.Bytecode.Compile
import Brainfuck.Structured.Code
import Mathlib.Algebra.Group.Nat.Defs

set_option autoImplicit false

/-! # The generated code

Runs are compiled with labels, pending jumps and a stack of open loops. If the runs are the pieces
of a tree, what comes out is the code of the tree (`Program.ofRuns_eq_ok`).

The proof goes along the tree. What the generator adds for a tree is described by `Assembly.Adds`:
new items, which become the tree's code once the labels have their places, and new labels. Labels
that were there before are left alone, so that an open loop still finds its own two labels when its
closing bracket is met. -/

namespace Brainfuck

/-! ## Resolving a stretch of items -/

/-- `later` knows the places that `places` knows. -/
def PlacesKept (places later : Array (Option Nat)) : Prop :=
  ∀ (i target : Nat), places[i]? = some (some target) → later[i]? = some (some target)

namespace CodeItem

/-- The instructions of a stretch of items, of which the first is at `start`. -/
def resolveAll (places : Array (Option Nat)) (start : Nat) (items : List CodeItem) :
    Except AssemblyError (List Op) :=
  (items.zipIdx start).mapM fun (item, ip) => item.resolve places ip

variable {places : Array (Option Nat)} {start : Nat}

theorem resolveAll_append {xs ys : List CodeItem} {c d : List Op}
    (hx : resolveAll places start xs = .ok c)
    (hy : resolveAll places (start + xs.length) ys = .ok d) :
    resolveAll places start (xs ++ ys) = .ok (c ++ d) := by
  unfold resolveAll at hx hy ⊢
  rw [List.zipIdx_append, List.mapM_append, hx, hy]
  rfl

theorem resolveAll_singleton {item : CodeItem} {op : Op}
    (h : item.resolve places start = .ok op) : resolveAll places start [item] = .ok [op] := by
  unfold resolveAll
  simp only [List.zipIdx_singleton, List.mapM_cons, h]
  rfl

theorem resolveAll_fixed (ops : List Op) :
    resolveAll places start (ops.map .fixed) = .ok ops := by
  induction ops generalizing start with
  | nil => rfl
  | cons op ops ih =>
      rw [List.map_cons, ← List.singleton_append, ← List.singleton_append (l := ops)]
      exact resolveAll_append (resolveAll_singleton rfl) ih

/-- A jump whose label has its place gets the distance to it. -/
theorem resolve_pending {op op' : Op} {label : Label} {target : Nat} {offset : Int32}
    (hplace : places[label.index]? = some (some target))
    (hoffset : jumpOffset? (target - start) = some offset)
    (hop : op.withOffset? offset = some op') :
    (pending op label).resolve places start = .ok op' := by
  simp [resolve, hplace, hoffset, hop]

end CodeItem

/-- The distances that a jump can hold. -/
theorem jumpOffset?_eq_some {distance : Int} (hlow : -2147483648 ≤ distance)
    (hhigh : distance < 2147483648) : jumpOffset? distance = some (Int32.ofInt distance) := by
  have hmin : Int32.minValue.toInt = -2147483648 := by decide
  have hmax : Int32.maxValue.toInt = 2147483647 := by decide
  rw [jumpOffset?, hmin, hmax, if_pos ⟨hlow, by omega⟩]

/-! ## What a stretch of the source adds -/

namespace Assembly

/-- `a'` is `a` with items behind it that become `c` once all labels have their places; the labels
    of `a` are as they were. -/
structure Adds (a a' : Assembly) (c : List Op) : Prop where
  items : ∃ new, a'.items.toList = a.items.toList ++ new ∧ new.length = c.length ∧
    ∀ later, PlacesKept a'.places later → CodeItem.resolveAll later a.position new = .ok c
  size_le : a.places.size ≤ a'.places.size
  places : ∀ i < a.places.size, a'.places[i]? = a.places[i]?

theorem Adds.refl (a : Assembly) : Adds a a [] where
  items := ⟨[], by simp, rfl, fun _ _ => rfl⟩
  size_le := Nat.le_refl _
  places := fun _ _ => rfl

theorem Adds.position_eq {a a' : Assembly} {c : List Op} (h : Adds a a' c) :
    a'.position = a.position + c.length := by
  obtain ⟨new, hitems, hlength, -⟩ := h.items
  rw [position, ← Array.length_toList, hitems, List.length_append, hlength, Array.length_toList]
  rfl

theorem Adds.placesKept {a a' : Assembly} {c : List Op} (h : Adds a a' c) :
    PlacesKept a.places a'.places := by
  intro i target hi
  obtain ⟨hlt, -⟩ := Array.getElem?_eq_some_iff.1 hi
  rw [h.places i hlt, hi]

theorem Adds.trans {a b d : Assembly} {c e : List Op} (hab : Adds a b c) (hbd : Adds b d e) :
    Adds a d (c ++ e) := by
  obtain ⟨new, hnew, hlength, hresolve⟩ := hab.items
  obtain ⟨more, hmore, hlength', hresolve'⟩ := hbd.items
  refine ⟨⟨new ++ more, ?_, ?_, ?_⟩, Nat.le_trans hab.size_le hbd.size_le, ?_⟩
  · rw [hmore, hnew, List.append_assoc]
  · rw [List.length_append, List.length_append, hlength, hlength']
  · intro later hkept
    refine CodeItem.resolveAll_append (hresolve later ?_) ?_
    · intro i target hi
      exact hkept i target (hbd.placesKept i target hi)
    · rw [hlength, ← hab.position_eq]
      exact hresolve' later hkept
  · intro i hi
    rw [hbd.places i (Nat.lt_of_lt_of_le hi hab.size_le), hab.places i hi]

/-- Puts down instructions that stay as they are. -/
def emitAll (a : Assembly) (ops : List Op) : Assembly :=
  { a with items := a.items ++ (ops.map CodeItem.fixed).toArray }

theorem emitCopies_eq_emitAll (a : Assembly) (op : Op) (n : Nat) :
    a.emitCopies op n = a.emitAll (List.replicate n op) := by
  simp [emitCopies, emitAll]

theorem adds_emitAll (a : Assembly) (ops : List Op) : Adds a (a.emitAll ops) ops where
  items := ⟨ops.map .fixed, by simp [emitAll], List.length_map _, fun _ _ =>
    CodeItem.resolveAll_fixed ops⟩
  size_le := Nat.le_refl _
  places := fun _ _ => rfl

theorem finish_eq_ok {a : Assembly} {c : List Op} (h : Adds empty a c) :
    a.finish = .ok c.toArray := by
  obtain ⟨new, hitems, -, hresolve⟩ := h.items
  have hall : CodeItem.resolveAll a.places 0 a.items.toList = .ok c := by
    rw [hitems]
    exact hresolve a.places (fun _ _ hi => hi)
  unfold CodeItem.resolveAll at hall
  rw [finish, hall]
  rfl

end Assembly

/-! ## Brackets -/

/-- The code behind an opening bracket: two new labels, of which the first has its place, and a
    jump to the second. -/
def Assembly.opened (a : Assembly) : Assembly where
  items := a.items.push (.pending (.jumpIfZero 0) ⟨a.places.size + 1⟩)
  places := (a.places.push (some a.position)).push none

/-- The code behind the closing bracket of the loop with the given labels. -/
def Assembly.closed (a : Assembly) (head exit : Label) : Assembly where
  items := a.items.push (.pending (.jump 0) head)
  places := a.places.setIfInBounds exit.index (some (a.position + 1))

/-- The loop that an opening bracket at `p` opens behind `a`. -/
def OpenLoop.after (a : Assembly) (p : Position) : OpenLoop :=
  ⟨⟨a.places.size⟩, ⟨a.places.size + 1⟩, p⟩

namespace Assembly

@[simp] theorem size_places_opened (a : Assembly) :
    a.opened.places.size = a.places.size + 2 := by
  simp [opened]

@[simp] theorem position_opened (a : Assembly) : a.opened.position = a.position + 1 := by
  simp [opened, position]

theorem getElem?_places_opened (a : Assembly) (i : Nat) :
    a.opened.places[i]? = if i = a.places.size + 1 then some none
      else if i = a.places.size then some (some a.position) else a.places[i]? := by
  rw [opened, Array.getElem?_push, Array.getElem?_push, Array.size_push]

@[simp] theorem size_places_closed (a : Assembly) (head exit : Label) :
    (a.closed head exit).places.size = a.places.size := by
  simp [closed]

theorem getElem?_places_closed_self {a : Assembly} (head : Label) {exit : Label}
    (h : exit.index < a.places.size) :
    (a.closed head exit).places[exit.index]? = some (some (a.position + 1)) := by
  rw [closed, Array.getElem?_setIfInBounds_self_of_lt h]

theorem getElem?_places_closed_ne (a : Assembly) (head : Label) {exit : Label} {i : Nat}
    (h : exit.index ≠ i) : (a.closed head exit).places[i]? = a.places[i]? := by
  rw [closed, Array.getElem?_setIfInBounds_ne h]

/-- What stands between two brackets becomes a loop: `a` is the code before the loop, `b` the code
    when its closing bracket is met. -/
theorem Adds.loop {a b : Assembly} {c : List Op}
    (hbody : a.opened.Adds b c) (hc : c.length + 2 < 2147483648) :
    a.Adds (b.closed ⟨a.places.size⟩ ⟨a.places.size + 1⟩) (LoopTree.loopCode c) := by
  obtain ⟨new, hnew, hlength, hresolve⟩ := hbody.items
  have hposition : b.position = a.position + 1 + c.length := by
    rw [hbody.position_eq, position_opened]
  have hsize : a.places.size + 2 ≤ b.places.size := by simpa using hbody.size_le
  have hplaces : ∀ i < a.places.size + 2, b.places[i]? = if i = a.places.size + 1 then some none
      else if i = a.places.size then some (some a.position) else a.places[i]? := by
    intro i hi
    rw [hbody.places i (by simpa using hi), getElem?_places_opened]
  refine ⟨⟨[.pending (.jumpIfZero 0) ⟨a.places.size + 1⟩] ++
    (new ++ [.pending (.jump 0) ⟨a.places.size⟩]), ?_, ?_, ?_⟩, ?_, ?_⟩
  · simp [closed, hnew, opened]
  · simp [hlength]
  · intro later hkept
    -- the two jumps find their labels, and the body is not touched by the new place
    have hexit : later[a.places.size + 1]? = some (some (b.position + 1)) := by
      apply hkept
      exact getElem?_places_closed_self _ (by simp only; omega)
    have hhead : later[a.places.size]? = some (some a.position) := by
      apply hkept
      rw [getElem?_places_closed_ne b _ (by simp), hplaces _ (by omega), if_neg (by omega),
        if_pos rfl]
    have hbodyKept : PlacesKept b.places later := by
      intro i target hi
      apply hkept
      have hne : a.places.size + 1 ≠ i := by
        rintro rfl
        rw [hplaces _ (by omega), if_pos rfl] at hi
        simp at hi
      rw [getElem?_places_closed_ne b _ hne]
      exact hi
    have hforward : ((b.position + 1 : Nat) : Int) - a.position = c.length + 2 := by omega
    have hback : (a.position : Int) - (a.position + 1 + c.length : Nat) = -(c.length + 1) := by
      omega
    refine CodeItem.resolveAll_append (CodeItem.resolveAll_singleton
      (CodeItem.resolve_pending hexit (jumpOffset?_eq_some (by omega) (by omega)) ?_))
      (CodeItem.resolveAll_append ?_ (CodeItem.resolveAll_singleton
        (CodeItem.resolve_pending hhead (jumpOffset?_eq_some ?_ ?_) ?_)))
    · rw [hforward]
      rfl
    · rw [List.length_singleton, ← position_opened]
      exact hresolve later hbodyKept
    · simp only [List.length_singleton, hlength]
      omega
    · simp only [List.length_singleton, hlength]
      omega
    · rw [List.length_singleton, hlength, hback]
      rfl
  · rw [size_places_closed]
    omega
  · intro i hi
    rw [getElem?_places_closed_ne b _ (by simp only; omega), hplaces i (by omega),
      if_neg (by omega), if_neg (by omega)]

end Assembly

namespace Codegen

theorem openLoop_eq (g : Codegen) (p : Position) :
    g.openLoop p
      = .ok { assembly := g.assembly.opened, loops := .after g.assembly p :: g.loops } := by
  have hnew : ((g.assembly.places.push none).push none)[g.assembly.places.size]? = some none := by
    rw [Array.getElem?_push, Array.size_push, if_neg (by omega), Array.getElem?_push_size]
  have hset : ((g.assembly.places.push none).push none).setIfInBounds g.assembly.places.size
      (some g.assembly.position) = g.assembly.opened.places := by
    apply Array.ext_getElem?
    intro i
    rw [Assembly.getElem?_places_opened]
    simp only [Array.getElem?_setIfInBounds, Array.getElem?_push, Array.size_push]
    split <;> split <;> grind
  simp only [openLoop, mark, Assembly.markLabel, Assembly.defineLabel, Array.size_push, hnew]
  simp only [Assembly.position] at hset
  simp only [Assembly.position, Assembly.emitJump, hset]
  rfl

theorem closeLoop_eq {g : Codegen} {l : OpenLoop} {outer : List OpenLoop} (p : Position)
    (hloops : g.loops = l :: outer)
    (hexit : g.assembly.places[l.exit.index]? = some none) :
    g.closeLoop p = .ok { assembly := g.assembly.closed l.head l.exit, loops := outer } := by
  simp only [closeLoop, hloops, mark, Assembly.markLabel, Assembly.places_emitJump, hexit,
    Assembly.position_emitJump]
  rfl

/-! ## Piece by piece -/

/-- The code for one piece of a run at `p`. -/
def put (g : Codegen) : Piece (Action × Nat) × Position → Except CompileError Codegen
  | (.leaf (a, n), _) => .ok { g with assembly := g.assembly.emitAll (a.code n) }
  | (.opening, p) => g.openLoop p
  | (.closing, p) => g.closeLoop p

theorem repeated_eq_foldlM (act : Codegen → Except CompileError Codegen) (n : Nat)
    (b : Piece (Action × Nat) × Position) (hact : ∀ g, act g = put g b) (g : Codegen) :
    repeated act n g = (List.replicate n b).foldlM put g := by
  induction n generalizing g with
  | zero => rfl
  | succ n ih =>
      rw [repeated, List.replicate_succ, List.foldlM_cons, hact]
      congr 1
      funext g'
      exact ih g'

end Codegen

/-- The pieces of a run, each with the place of the run. -/
def Run.placed (r : Run) : List (Piece (Action × Nat) × Position) :=
  r.pieces.map (·, r.position)

namespace Codegen

theorem run_eq_foldlM (g : Codegen) (r : Run) : g.run r = r.placed.foldlM put g := by
  obtain ⟨command, count, position⟩ := r
  cases command with
  | loopStart =>
      rw [Run.placed, Run.pieces, Command.piece, List.map_replicate]
      exact repeated_eq_foldlM _ count (.opening, position) (fun _ => rfl) g
  | loopEnd =>
      rw [Run.placed, Run.pieces, Command.piece, List.map_replicate]
      exact repeated_eq_foldlM _ count (.closing, position) (fun _ => rfl) g
  | write =>
      simp only [run, Assembly.emitCopies_eq_emitAll]
      rfl
  | read =>
      simp only [run, Assembly.emitCopies_eq_emitAll]
      rfl
  | _ => rfl

theorem foldlM_run_eq (runs : List Run) (g : Codegen) :
    runs.foldlM run g = (runs.flatMap Run.placed).foldlM put g := by
  induction runs generalizing g with
  | nil => rfl
  | cons r runs ih =>
      rw [List.foldlM_cons, List.flatMap_cons, List.foldlM_append, run_eq_foldlM]
      congr 1
      funext g'
      exact ih g'

/-! ## Along a tree -/

/-- The pieces of a tree add the tree's code and leave the open loops as they were. -/
theorem foldlM_put_tree (t : LoopTree (Action × Nat)) (hcode : t.code.length < 2147483648) :
    ∀ (placed : List (Piece (Action × Nat) × Position)) (g : Codegen),
      placed.map Prod.fst = t.pieces →
      ∃ a, placed.foldlM put g = .ok { g with assembly := a } ∧ g.assembly.Adds a t.code := by
  induction t with
  | done =>
      intro placed g hplaced
      rw [List.map_eq_nil_iff.1 hplaced]
      exact ⟨g.assembly, rfl, .refl _⟩
  | leaf run rest ih =>
      intro placed g hplaced
      obtain ⟨action, n⟩ := run
      obtain ⟨⟨_, p⟩, placed, rfl, rfl, hrest⟩ := List.map_eq_cons_iff.1 hplaced
      rw [LoopTree.code, List.length_append] at hcode
      obtain ⟨a, hfold, hadds⟩ := ih (by omega) placed
        { g with assembly := g.assembly.emitAll (action.code n) } hrest
      exact ⟨a, hfold, (g.assembly.adds_emitAll _).trans hadds⟩
  | loop body rest ihbody ihrest =>
      intro placed g hplaced
      rw [LoopTree.code, List.length_append, LoopTree.length_loopCode] at hcode
      -- the pieces are an opening bracket, the body, a closing bracket and the rest
      obtain ⟨⟨_, p⟩, behind, rfl, rfl, hbehind⟩ := List.map_eq_cons_iff.1 hplaced
      obtain ⟨inner, closed, rfl, hinner, hclosed⟩ := List.map_eq_append_iff.1 hbehind
      obtain ⟨⟨_, q⟩, outer, rfl, rfl, houter⟩ := List.map_eq_cons_iff.1 hclosed
      obtain ⟨b, hfoldBody, hbody⟩ := ihbody (by omega) inner
        { assembly := g.assembly.opened, loops := .after g.assembly p :: g.loops } hinner
      have hexit : b.places[g.assembly.places.size + 1]? = some none := by
        rw [hbody.places _ (by simp), Assembly.getElem?_places_opened, if_pos rfl]
      obtain ⟨a, hfoldRest, hadds⟩ := ihrest (by omega) outer
        { assembly := b.closed ⟨g.assembly.places.size⟩ ⟨g.assembly.places.size + 1⟩
          loops := g.loops } houter
      refine ⟨a, ?_, (hbody.loop (by omega)).trans hadds⟩
      calc ((Piece.opening, p) :: (inner ++ (Piece.closing, q) :: outer)).foldlM put g
          = (inner.foldlM put _ >>= fun g' => put g' (.closing, q) >>= outer.foldlM put) := by
            rw [List.foldlM_cons, put, openLoop_eq]
            exact List.foldlM_append
        _ = outer.foldlM put _ := by
            have hclose := closeLoop_eq (g := ⟨b, .after g.assembly p :: g.loops⟩) q rfl hexit
            rw [hfoldBody]
            exact congrArg (· >>= outer.foldlM put) hclose
        _ = .ok { g with assembly := a } := hfoldRest

end Codegen

namespace Program

/-- Runs that are the pieces of a tree compile to the code of the tree. -/
theorem ofRuns_eq_ok {target : Target} (hmemory : target.memorySize ≠ 0) {runs : List Run}
    {t : LoopTree (Action × Nat)} (ht : t.pieces = runs.flatMap Run.pieces)
    (hcode : t.code.length < 2147483648) :
    ofRuns target runs = .ok {
      memorySize := target.memorySize
      boundsCheck := target.boundsCheck
      ops := (t.code ++ [Op.halt]).toArray } := by
  have hplaced : (runs.flatMap Run.placed).map Prod.fst = t.pieces := by
    rw [ht, List.map_flatMap]
    congr 1
    funext r
    rw [Run.placed, List.map_map]
    exact List.map_id _
  obtain ⟨a, hfold, hadds⟩ := Codegen.foldlM_put_tree t hcode _ Codegen.start hplaced
  have hfinish := Assembly.finish_eq_ok (hadds.trans (a.adds_emitAll [Op.halt]))
  rw [ofRuns, if_neg hmemory, Codegen.foldlM_run_eq, hfold]
  show (do
    let ops ← (a.emitAll [Op.halt]).finish.mapError CompileError.assembly
    return ({ memorySize := target.memorySize, boundsCheck := target.boundsCheck, ops } : Program))
      = _
  rw [hfinish]
  rfl

end Program

end Brainfuck
