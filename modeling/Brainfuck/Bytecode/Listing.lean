import Brainfuck.Bytecode.Program
import Brainfuck.Text.Columns

set_option autoImplicit false

/-! # Listings

A program as text: its declarations, then one line for each instruction. The targets of jumps are
marked, and each jump shows its distance, its direction and its target. A target before the first
instruction is shown as the 64-bit word that it wraps around to. -/

namespace Brainfuck

namespace Op

/-- The place that a jump over `offset` at `ip` leads to, as a 64-bit word. -/
def targetWord (ip : Nat) (offset : Int32) : Nat :=
  ((ip + offset.toInt) % UInt64.size).toNat

/-- A jump in a listing. -/
def jumpLine (name : String) (ip : Nat) (offset : Int32) : String :=
  let arrow := if offset.toInt < 0 then "↑" else "↓"
  let column := Text.padRight 11 name
  let distance := Text.signed offset.toInt
  let target := Text.zeroPadded 4 (targetWord ip offset)
  s!"{column} {distance} {arrow} (→ {target})"

/-- The instruction at `ip` in a listing. -/
def listingText (ip : Nat) : Op → String
  | addCell n => s!"ADD_CELL    {n.toNat}"
  | subCell n => s!"SUB_CELL    {n.toNat}"
  | moveRight n => s!"MOVE_RIGHT  {n.toNat}"
  | moveLeft n => s!"MOVE_LEFT   {n.toNat}"
  | write => "WRITE       ; out(memory[ptr])"
  | read => "READ        ; memory[ptr] = in() & 0xFF"
  | jump offset => jumpLine "JUMP" ip offset
  | jumpIfZero offset => jumpLine "JUMP_ZERO" ip offset
  | halt => "RETURN"

end Op

namespace Listing

/-- The places that jumps lead to. -/
def targets (ops : List Op) : List Nat :=
  ops.zipIdx.filterMap fun (op, ip) => op.offset?.map (Op.targetWord ip)

/-- The rule above a jump target. -/
def targetRule : String := "      ┌──────────────────────────────────\n"

/-- The line of the instruction at `ip`, with the rule above it if jumps lead there. -/
def line (targets : List Nat) (ip : Nat) (op : Op) : String :=
  let isTarget := targets.contains ip
  let rule := if isTarget then targetRule else ""
  let mark := if isTarget then "► " else "  "
  let place := Text.zeroPadded 4 ip
  let text := op.listingText ip
  s!"{rule}{place} {mark}{text}\n"

/-- The lines of a list of instructions. -/
def ops (code : List Op) : String :=
  let marked := targets code
  code.zipIdx.foldl (fun text (op, ip) => text ++ line marked ip op) ""

/-- The rule around the heading of the code. -/
def headingRule : String := "════════════════════════════════════════\n"

end Listing

/-- The whole listing of a program. -/
def Program.listing (p : Program) : String :=
  let checked := if p.boundsCheck then " (bounds checked)" else ""
  "=== BYTECODE PROGRAM ===\n\n" ++
    s!"memory   {p.memorySize.toNat} cells{checked}\n" ++
    s!"ptr      {p.pointerStart.toNat}\n\n" ++
    Listing.headingRule ++
    s!" main\n {p.ops.size} instructions\n" ++
    Listing.headingRule ++
    Listing.ops p.ops.toList ++ "\n"

end Brainfuck
