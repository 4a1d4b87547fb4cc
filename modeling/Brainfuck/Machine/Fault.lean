set_option autoImplicit false

/-! # Scheduled faults

Streams can fail. A schedule says which of the coming calls of one kind go wrong, and how. It is a
list of faults, each with the number of calls that go through before it, so that a call takes at
most the head off the list and faults that lie far ahead cost nothing. -/

namespace Brainfuck

/-- What can go wrong in a call of a stream. -/
inductive Fault where
  /-- The call fails. -/
  | error (text : String)
  /-- The call is interrupted, and can be made again. -/
  | interrupted (text : String)
  /-- The call transfers nothing. -/
  | zero
deriving DecidableEq, Repr

/-- The faults of the coming calls, each with the number of calls that go through before it. -/
abbrev Schedule := List (Nat × Fault)

namespace Schedule

/-- The fault of the next call, if it has one, and the schedule of the calls after it. -/
def next : Schedule → Option Fault × Schedule
  | [] => (none, [])
  | (0, fault) :: later => (some fault, later)
  | (n + 1, fault) :: later => (none, (n, fault) :: later)

/-- The fault of the call with the given number, counted from 0. -/
def faultAt : Schedule → Nat → Option Fault
  | [], _ => none
  | (gap, fault) :: later, i =>
    if i < gap then none
    else if i = gap then some fault
    else faultAt later (i - gap - 1)

/-- Gives the call with the given number a fault, in place of the one it may have. -/
def set (i : Nat) (fault : Fault) : Schedule → Schedule
  | [] => [(i, fault)]
  | (gap, f) :: later =>
    if i < gap then (i, fault) :: (gap - i - 1, f) :: later
    else if i = gap then (gap, fault) :: later
    else (gap, f) :: set (i - gap - 1) fault later

/-- The schedule with the given faults, each with the number of its call. -/
def ofList (faults : List (Nat × Fault)) : Schedule :=
  faults.foldl (fun s (i, fault) => s.set i fault) []

theorem next_fst : ∀ s : Schedule, s.next.1 = s.faultAt 0
  | [] => rfl
  | (0, _) :: _ => by simp [next, faultAt]
  | (n + 1, _) :: _ => by simp [next, faultAt]

end Schedule

end Brainfuck
