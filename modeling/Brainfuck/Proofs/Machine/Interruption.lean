import Brainfuck.Proofs.Machine.Attempts
import Brainfuck.Proofs.Machine.Lockstep

set_option autoImplicit false

/-! # Interruptions are invisible

A read or a write that is interrupted is made again, so that one more interruption in the schedule
costs one more call and changes nothing else. Either the call with the number of the interruption
has not been made, and the interruption still lies ahead in the schedule, or it has been made, and
the record of the calls has it as an additional entry (`Streams.Interrupted`). Every operation goes
from the first case to the first or the second, and stays in the second. -/

namespace Brainfuck

/-! ## Schedules with more faults -/

namespace Schedule

/-- Puts a call with a fault before the call with the given number. The faults from there on move
    up by one call. -/
def insertFault (i : Nat) (fault : Fault) : Schedule → Schedule
  | [] => [(i, fault)]
  | (gap, f) :: later =>
    if i ≤ gap then (i, fault) :: (gap - i, f) :: later
    else (gap, f) :: insertFault (i - gap - 1) fault later

theorem faultAt_insertFault (i : Nat) (fault : Fault) (s : Schedule) (j : Nat) :
    faultAt (s.insertFault i fault) j
      = if j < i then s.faultAt j else if j = i then some fault else s.faultAt (j - 1) := by
  induction s generalizing i j with
  | nil => simp only [insertFault, faultAt]
  | cons head later ih =>
      obtain ⟨gap, f⟩ := head
      by_cases hi : i ≤ gap
      · have hlater : j - i - 1 - (gap - i) - 1 = j - 1 - gap - 1 := by omega
        simp only [insertFault, if_pos hi, faultAt, hlater]
        repeat' split
        all_goals first | rfl | omega
      · have hlater : j - 1 - gap - 1 = j - gap - 1 - 1 := by omega
        simp only [insertFault, if_neg hi, faultAt, ih, hlater]
        repeat' split
        all_goals first | rfl | omega

/-- An interruption that is put in before the call that decides is one more of those before it. Any
    other is left for later. -/
theorem settle_insertFault (s : Schedule) (j : Nat) (text : String) :
    (s.insertFault j (.interrupted text)).settle
      = if j ≤ s.settle.1.length then
          (s.settle.1.take j ++ text :: s.settle.1.drop j, s.settle.2)
        else (s.settle.1, s.settle.2.1,
          s.settle.2.2.insertFault (j - s.settle.1.length - 1) (.interrupted text)) := by
  induction s generalizing j with
  | nil => rcases j with - | j <;> rfl
  | cons head later ih =>
      obtain ⟨n, fault⟩ := head
      rcases j with - | j
      · rcases n with - | n
        · rcases fault with u | u | - <;> rfl
        · rfl
      · have hnot : ¬ j + 1 ≤ 0 := by omega
        rcases n with - | n
        · rcases fault with u | u | -
          · rfl
          · simp only [insertFault, if_neg hnot, settle, Nat.add_sub_cancel, Nat.sub_zero, ih j,
              List.length_cons, Nat.add_le_add_iff_right, Nat.add_sub_add_right]
            split <;> rfl
          · rfl
        · simp only [insertFault, Nat.add_le_add_iff_right, settle, List.length_nil, if_neg hnot,
            Nat.sub_zero, Nat.add_sub_cancel, Nat.add_sub_add_right]
          split <;> rfl

theorem fault_settle_insertFault (s : Schedule) (j : Nat) (text : String) :
    (s.insertFault j (.interrupted text)).settle.2.1 = s.settle.2.1 := by
  rw [settle_insertFault]
  split <;> rfl

/-- The schedule with interruptions put in, each with the number of its call at that time. The one
    that was put in last comes first. -/
def interrupt (s : Schedule) : List (Nat × String) → Schedule
  | [] => s
  | (i, text) :: earlier => (s.interrupt earlier).insertFault i (.interrupted text)

/-- The numbers that the calls of these interruptions have in the end. -/
def places : List (Nat × String) → List Nat
  | [] => []
  | (i, _) :: earlier => i :: (places earlier).map fun j => if i ≤ j then j + 1 else j

theorem faultAt_interrupt (s : Schedule) (inserted : List (Nat × String)) :
    ∀ j ∈ places inserted, ∃ text, (s.interrupt inserted).faultAt j = some (.interrupted text) := by
  induction inserted with
  | nil => simp [places]
  | cons head earlier ih =>
      obtain ⟨i, text⟩ := head
      intro j hj
      rw [interrupt, faultAt_insertFault]
      rcases List.mem_cons.1 hj with rfl | hmoved
      · exact ⟨text, by simp⟩
      · obtain ⟨j', hj', rfl⟩ := List.mem_map.1 hmoved
        obtain ⟨text', hfault⟩ := ih j' hj'
        refine ⟨text', ?_⟩
        by_cases hle : i ≤ j'
        · rw [if_pos hle, if_neg (by omega), if_neg (by omega)]
          exact hfault
        · rw [if_neg hle, if_pos (by omega)]
          exact hfault

end Schedule

/-! ## Calls that were made again -/

namespace Call

/-- The call was interrupted and made again. -/
def isRetried : Call → Bool
  | read (some (.interrupted _)) none => true
  | write (some (.interrupted _)) _ => true
  | _ => false

theorem eq_of_isRetried {c : Call} (h : c.isRetried = true) :
    (∃ text, c = .read (some (.interrupted text)) none) ∨
      ∃ text b, c = .write (some (.interrupted text)) b := by
  unfold isRetried at h
  split at h
  · exact .inl ⟨_, rfl⟩
  · exact .inr ⟨_, _, rfl⟩
  · contradiction

theorem written?_of_isRetried {c : Call} (h : c.isRetried = true) : c.written? = none := by
  rcases eq_of_isRetried h with ⟨text, rfl⟩ | ⟨text, b, rfl⟩ <;> rfl

theorem taken?_of_isRetried {c : Call} (h : c.isRetried = true) : c.taken? = none := by
  rcases eq_of_isRetried h with ⟨text, rfl⟩ | ⟨text, b, rfl⟩ <;> rfl

theorem isFlush_of_isRetried {c : Call} (h : c.isRetried = true) : c.isFlush = false := by
  rcases eq_of_isRetried h with ⟨text, rfl⟩ | ⟨text, b, rfl⟩ <;> rfl

theorem isOf_of_ne {c : Call} {k k' : Transfer} (h : c.isOf k = true) (hk : k' ≠ k) :
    c.isOf k' = false := by
  rcases k with - | - <;> rcases k' with - | - <;> cases c <;> simp_all [isOf, isRead, isWrite]

end Call

namespace Streams

/-- The calls so far that were not made again, in order. -/
def effective (s : Streams) : List Call := s.trace.filter (! ·.isRetried)

theorem filterMap_effective {α : Type} {f : Call → Option α}
    (hf : ∀ {c : Call}, c.isRetried = true → f c = none) (s : Streams) :
    s.effective.filterMap f = s.trace.filterMap f := by
  rw [effective, List.filterMap_filter]
  congr 1
  funext c
  by_cases hc : c.isRetried = true
  · simp [hc, hf hc]
  · simp [hc]

theorem flushPoints_cons_of_isRetried {c : Call} (h : c.isRetried = true) (written : Nat)
    (calls : List Call) : flushPoints written (c :: calls) = flushPoints written calls := by
  rcases Call.eq_of_isRetried h with ⟨text, rfl⟩ | ⟨text, b, rfl⟩ <;> rfl

theorem flushPoints_filter (written : Nat) (calls : List Call) :
    flushPoints written (calls.filter (! ·.isRetried)) = flushPoints written calls := by
  induction calls generalizing written with
  | nil => rfl
  | cons c calls ih =>
      by_cases hc : c.isRetried = true
      · rw [List.filter_cons_of_neg (by simp [hc]), ih, flushPoints_cons_of_isRetried hc]
      · rw [List.filter_cons_of_pos (by simp [hc])]
        unfold flushPoints
        split <;> simp_all

/-! What else is observed of the streams can be told from the calls that were not made again. -/

theorem output_eq (s : Streams) : s.output = s.effective.filterMap Call.written? :=
  (filterMap_effective Call.written?_of_isRetried s).symm

theorem consumed_eq (s : Streams) : s.consumed = (s.effective.filterMap Call.taken?).length := by
  rw [filterMap_effective Call.taken?_of_isRetried, trace, List.filterMap_reverse,
    List.length_reverse]
  rfl

theorem flushedAt_eq (s : Streams) : s.flushedAt = flushPoints 0 s.effective :=
  (flushPoints_filter 0 s.trace).symm

theorem filter_isFlush_eq (s : Streams) :
    s.trace.filter Call.isFlush = s.effective.filter Call.isFlush := by
  rw [effective, List.filter_filter]
  congr 1
  funext c
  by_cases hc : c.isRetried = true
  · simp [hc, Call.isFlush_of_isRetried hc]
  · simp [hc]

/-! ## One more interruption -/

/-- The second streams are the first with one more interruption, at the call with number `i` of its
    kind. -/
inductive Interrupted (k : Transfer) (i : Nat) (text : String) : Streams → Streams → Prop
  | ahead (s : Streams) (j : Nat) (hj : s.count k + j = i) :
      Interrupted k i text s (s.withFaults k ((s.faults k).insertFault j (.interrupted text)))
  | behind (s : Streams) (c : Call) (newer older : List Call) (hcalls : s.calls = newer ++ older)
      (hc : c.isRetried = true) (hk : c.isOf k = true) (hi : older.countP (Call.isOf k) = i) :
      Interrupted k i text s (s.withCalls (newer ++ c :: older))

namespace Interrupted

variable {k : Transfer} {i j : Nat} {text : String} {s s' : Streams}

theorem input (h : Interrupted k i text s s') : s'.input = s.input := by
  rcases h with ⟨j, -⟩ | ⟨c, newer, older, -, -, -, -⟩
  · cases k <;> rfl
  · rfl

theorem effective (h : Interrupted k i text s s') : s'.effective = s.effective := by
  rcases h with ⟨j, -⟩ | ⟨c, newer, older, hcalls, hc, -, -⟩
  · simp [Streams.effective, trace]
  · simp [Streams.effective, trace, withCalls, hcalls, hc]

/-- There is one more call of this kind if the number of the interruption has been reached. -/
theorem count_eq (h : Interrupted k i text s s') :
    s'.count k = s.count k + if i < s'.count k then 1 else 0 := by
  rcases h with ⟨j, hj⟩ | ⟨c, newer, older, hcalls, -, hk, hi⟩
  · have hcount : (s.withFaults k ((s.faults k).insertFault j (.interrupted text))).count k
        = s.count k := by simp [count]
    rw [hcount, if_neg (by omega), Nat.add_zero]
  · have hcount : (s.withCalls (newer ++ c :: older)).count k = s.count k + 1 := by
      simp only [count, withCalls, hcalls, List.countP_append, List.countP_cons, hk, if_true]
      omega
    have hreached : i < s.count k + 1 := by
      simp only [count, hcalls, List.countP_append]
      omega
    rw [hcount, if_pos hreached]

theorem count_of_ne (h : Interrupted k i text s s') {k' : Transfer} (hne : k' ≠ k) :
    s'.count k' = s.count k' := by
  rcases h with ⟨j, -⟩ | ⟨c, newer, older, hcalls, -, hk, -⟩
  · simp [count]
  · simp [count, withCalls, hcalls, Call.isOf_of_ne hk hne]

/-- An interruption that lies behind stays so. -/
theorem of_records {α : Type} {op : Streams → α × Streams} (hrecords : Records op) {c : Call}
    {newer older : List Call} (hcalls : s.calls = newer ++ older) (hc : c.isRetried = true)
    (hk : c.isOf k = true) (hi : older.countP (Call.isOf k) = i) :
    Agree (Interrupted k i text) (op s) (op (s.withCalls (newer ++ c :: older))) := by
  obtain ⟨made, hmade⟩ := hrecords s
  have hself : op s = ((op s).1, (op s).2.withCalls (made ++ s.calls)) := hmade s.calls
  have hafter : (op s).2.calls = made ++ newer ++ older := by
    rw [hself, List.append_assoc, ← hcalls]
    rfl
  rw [hmade, ← List.append_assoc]
  exact ⟨rfl, .behind _ c (made ++ newer) older hafter hc hk hi⟩

/-- An operation of another kind carries the interruption along. -/
theorem of_ignores {α : Type} {op : Streams → α × Streams} (hrecords : Records op)
    (hignores : Ignores k op) (h : Interrupted k i text s s') :
    Agree (Interrupted k i text) (op s) (op s') := by
  rcases h with ⟨j, hj⟩ | ⟨c, newer, older, hcalls, hc, hk, hi⟩
  · obtain ⟨hcount, hop⟩ := hignores s
    have hself := hop (s.faults k)
    rw [withFaults_faults] at hself
    have hfaults : (op s).2.faults k = s.faults k := by
      rw [hself, faults_withFaults]
    rw [hop, ← hfaults]
    exact ⟨rfl, .ahead _ j (by omega)⟩
  · exact of_records hrecords hcalls hc hk hi

/-- The calls for one byte come to the interruption, or leave it ahead. -/
theorem attempted (s : Streams) (call : Option Fault → Call)
    (hk : ∀ fault, (call fault).isOf k = true)
    (hc : ∀ text, (call (some (.interrupted text))).isRetried = true) (hj : s.count k + j = i)
    (faults : Schedule) :
    Interrupted k i text (s.attempted k call faults.settle)
      (s.attempted k call (faults.insertFault j (.interrupted text)).settle) := by
  rw [Schedule.settle_insertFault]
  rcases faults.settle with ⟨texts, fault, later⟩
  by_cases hreached : j ≤ texts.length
  · -- The interruption is one of the calls that have just been made.
    rw [if_pos hreached]
    obtain ⟨first, rest, rfl, rfl⟩ : ∃ first rest, texts = first ++ rest ∧ first.length = j :=
      ⟨texts.take j, texts.drop j, by simp, List.length_take_of_le hreached⟩
    simp only [List.take_left, List.drop_left]
    have hmore : s.attempted k call (first ++ text :: rest, fault, later)
        = (s.attempted k call (first ++ rest, fault, later)).withCalls
          ((call fault :: (rest.map fun text => call (some (.interrupted text))).reverse)
            ++ call (some (.interrupted text)) ::
              ((first.map fun text => call (some (.interrupted text))).reverse ++ s.calls)) := by
      simp [Streams.attempted, withCalls]
    rw [hmore]
    refine .behind _ _ _ _ ?_ (hc text) (hk _) ?_
    · simp [Streams.attempted, withCalls]
    · rw [countP_interruptions hk, ← hj, count, Nat.add_comm]
  · -- It lies ahead by as many calls fewer as have just been made.
    rw [if_neg hreached]
    have hcount : (s.attempted k call (texts, fault, later)).count k
        = s.count k + texts.length + 1 := count_attempted hk _
    have hleft : s.attempted k call
        (texts, fault, later.insertFault (j - texts.length - 1) (.interrupted text))
        = (s.attempted k call (texts, fault, later)).withFaults k
          (((s.attempted k call (texts, fault, later)).faults k).insertFault
            (j - texts.length - 1) (.interrupted text)) := by
      rcases k with - | - <;> rfl
    rw [hleft]
    exact .ahead _ _ (by omega)

theorem read (h : Interrupted .read i text s s') :
    Agree (Interrupted .read i text) s.read s'.read := by
  rcases h with ⟨j, hj⟩ | ⟨c, newer, older, hcalls, hc, hk, hi⟩
  · have hfault := Schedule.fault_settle_insertFault s.readFaults j text
    have hattempted : Interrupted .read i text _ _ := attempted
      { s with input := remaining s.input s.readFaults.settle.2.1 } (readCall s.input)
      (fun _ => rfl) (fun _ => rfl) hj s.readFaults
    simp only [read_eq, withFaults, faults, hfault]
    exact ⟨rfl, hattempted⟩
  · exact of_records records_read hcalls hc hk hi

theorem write (b : UInt8) (h : Interrupted .write i text s s') :
    Agree (Interrupted .write i text) (s.write b) (s'.write b) := by
  rcases h with ⟨j, hj⟩ | ⟨c, newer, older, hcalls, hc, hk, hi⟩
  · have hfault := Schedule.fault_settle_insertFault s.writeFaults j text
    rw [write_eq, write_eq]
    refine ⟨congrArg writeOutcome hfault, ?_⟩
    exact attempted s (.write · b) (fun _ => rfl) (fun _ => rfl) hj s.writeFaults
  · exact of_records (records_write b) hcalls hc hk hi

/-- One more interruption leaves every result as it is. -/
theorem lockstep (k : Transfer) (i : Nat) (text : String) :
    Lockstep (fun _ => True) (Interrupted k i text) where
  before := fun _ _ => trivial
  flush := fun hR _ => hR.of_ignores records_flush (ignores_flush k)
  read := by
    intro s s' hR _
    rcases k with - | -
    · exact hR.read
    · exact hR.of_ignores records_read ignores_read
  write := by
    intro s s' b hR _
    rcases k with - | -
    · exact hR.of_ignores (records_write b) (ignores_write b)
    · exact hR.write b

end Interrupted

end Streams

/-! ## Any number of interruptions -/

/-- The second result is the first but for additional calls of one kind, which were interrupted; the
    places are those that they could have. -/
structure RunResult.Unseen (k : Transfer) (places : List Nat) (r r' : RunResult) : Prop where
  outcome : r'.outcome = r.outcome
  tape : r'.tape = r.tape
  input : r'.streams.input = r.streams.input
  effective : r'.streams.effective = r.streams.effective
  /-- The additional calls are those whose places were reached. -/
  count_eq : r'.streams.count k
    = r.streams.count k + places.countP (· < r'.streams.count k)
  count_of_ne : ∀ {k' : Transfer}, k' ≠ k → r'.streams.count k' = r.streams.count k'

namespace RunResult.Unseen

variable {k : Transfer} {places : List Nat} {r r₁ r₂ : RunResult}

theorem refl (k : Transfer) (r : RunResult) : Unseen k [] r r :=
  ⟨rfl, rfl, rfl, rfl, rfl, fun _ => rfl⟩

/-- After a further interruption, the same earlier ones have been reached. -/
theorem countP_places {i n n' : Nat} (h : n' = n + if i < n' then 1 else 0) (places : List Nat) :
    (i :: places.map fun j => if i ≤ j then j + 1 else j).countP (· < n')
      = places.countP (· < n) + if i < n' then 1 else 0 := by
  rw [List.countP_cons, List.countP_map]
  congr 1
  · refine List.countP_congr ?_
    intro j _
    simp only [Function.comp_apply, decide_eq_true_eq]
    split at h <;> split <;> omega
  · simp

theorem interrupted {i : Nat} {text : String} (h : Unseen k places r r₁)
    (houtcome : r₂.outcome = r₁.outcome) (htape : r₂.tape = r₁.tape)
    (hstreams : Streams.Interrupted k i text r₁.streams r₂.streams) :
    Unseen k (i :: places.map fun j => if i ≤ j then j + 1 else j) r r₂ where
  outcome := houtcome.trans h.outcome
  tape := htape.trans h.tape
  input := hstreams.input.trans h.input
  effective := hstreams.effective.trans h.effective
  count_eq := by
    have hcount := hstreams.count_eq
    rw [countP_places hcount, ← Nat.add_assoc, ← h.count_eq]
    exact hcount
  count_of_ne := fun hne => (hstreams.count_of_ne hne).trans (h.count_of_ne hne)

end RunResult.Unseen

theorem rel_comp {α : Type} {R S T : α → α → Prop} (h : ∀ a b c, R a b → S b c → T a c)
    {x y z : Option α} (hxy : Option.Rel R x y) (hyz : Option.Rel S y z) : Option.Rel T x z := by
  rcases hxy with ⟨hab⟩ | -
  · cases hyz with
    | some hbc => exact .some (h _ _ _ hab hbc)
  · cases hyz
    exact .none

namespace Program

/-- Interruptions of one kind do not show in a run on fresh streams. -/
theorem rel_run_interrupt (p : Program) (limit : Option Nat) (fuel : Nat) (before : Tape)
    {s : Streams} (hs : s.calls = []) (k : Transfer) (inserted : List (Nat × String)) :
    Option.Rel (RunResult.Unseen k (Schedule.places inserted)) (p.run limit fuel before s)
      (p.run limit fuel before (s.withFaults k ((s.faults k).interrupt inserted))) := by
  induction inserted with
  | nil =>
      rw [Schedule.interrupt, Streams.withFaults_faults]
      rcases p.run limit fuel before s with - | r
      · exact .none
      · exact .some (.refl k r)
  | cons head earlier ih =>
      obtain ⟨i, text⟩ := head
      -- One more interruption, in a schedule that has the earlier ones already.
      have hfresh : (s.withFaults k ((s.faults k).interrupt earlier)).count k + i = i := by
        simp [Streams.count, hs]
      have hrel := (Streams.Interrupted.lockstep k i text).rel_run p limit fuel before
        (.ahead _ i hfresh)
      rw [Streams.faults_withFaults, Streams.withFaults_withFaults] at hrel
      rw [Schedule.interrupt]
      refine rel_comp ?_ ih hrel
      rintro r r₁ r₂ h ⟨houtcome, htape, hstreams⟩
      exact h.interrupted houtcome htape hstreams

/-- Interruptions that are put into the schedules of the reads and of the writes, at any places and
    in any number, do not show in a run: it ends in the same way on the same tape, with the same
    output, the same flushes of as much output and the same input left, or neither run ends. There
    are only more read and write calls, one for each interruption that was reached. -/
theorem run_interrupted (p : Program) (limit : Option Nat) (fuel : Nat) (before : Tape)
    (input : List UInt8) (readFaults writeFaults flushFaults : Schedule)
    (inReads inWrites : List (Nat × String)) :
    Option.Rel (fun r r' =>
        r'.outcome = r.outcome ∧ r'.tape = r.tape ∧
        r'.streams.output = r.streams.output ∧
        r'.streams.trace.filter Call.isFlush = r.streams.trace.filter Call.isFlush ∧
        r'.streams.flushedAt = r.streams.flushedAt ∧
        r'.streams.consumed = r.streams.consumed ∧ r'.streams.input = r.streams.input ∧
        r'.streams.reads = r.streams.reads
          + (Schedule.places inReads).countP (· < r'.streams.reads) ∧
        r'.streams.writes = r.streams.writes
          + (Schedule.places inWrites).countP (· < r'.streams.writes))
      (p.run limit fuel before { input, readFaults, writeFaults, flushFaults })
      (p.run limit fuel before
        { input, readFaults := readFaults.interrupt inReads,
          writeFaults := writeFaults.interrupt inWrites, flushFaults }) := by
  have hreads := p.rel_run_interrupt limit fuel before
    (s := { input, readFaults, writeFaults, flushFaults }) rfl .read inReads
  have hwrites := p.rel_run_interrupt limit fuel before
    (s := { input, readFaults := readFaults.interrupt inReads, writeFaults, flushFaults }) rfl
    .write inWrites
  refine rel_comp ?_ hreads hwrites
  intro r r₁ r₂ h h'
  have heffective : r₂.streams.effective = r.streams.effective := h'.effective.trans h.effective
  have hreads' : r₂.streams.reads = r₁.streams.reads :=
    h'.count_of_ne (show Transfer.read ≠ .write by decide)
  have hwrites' : r₁.streams.writes = r.streams.writes :=
    h.count_of_ne (show Transfer.write ≠ .read by decide)
  refine ⟨h'.outcome.trans h.outcome, h'.tape.trans h.tape, ?_, ?_, ?_, ?_,
    h'.input.trans h.input, ?_, ?_⟩
  · rw [Streams.output_eq, Streams.output_eq, heffective]
  · rw [Streams.filter_isFlush_eq, Streams.filter_isFlush_eq, heffective]
  · rw [Streams.flushedAt_eq, Streams.flushedAt_eq, heffective]
  · rw [Streams.consumed_eq, Streams.consumed_eq, heffective]
  · rw [hreads']
    exact h.count_eq
  · rw [← hwrites']
    exact h'.count_eq

end Program

end Brainfuck
