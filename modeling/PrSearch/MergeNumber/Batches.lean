import PrSearch.MergeNumber.Plan

/-! # Batches of a plan

A plan over a list of rows is a plan over its first part, continued over the rest. The continuation
starts from the checkpoint that the first part has reached. It knows the pull requests that the
first part has numbered, the merge time it has seen last and what is left of its time.
-/
namespace PrSearch.MergeNumber

open Sequence Tally

/-! ### One row -/

/-- What becomes of a row: a reason to stop before it, or the number it is to take, if any. -/
def rowVerdict (row : PlanRow) (headNumber : Int) (taken : Int → Bool) :
    Except Fault (BlockReason ⊕ Option Int) :=
  if row.existingNumber.isSome ∧ ¬ row.idempotent headNumber then .ok (.inl .canonicalMismatch)
  else
    match row.decision with
    | .unresolved => .ok (.inl (row.reason.getD .prEvidencePending))
    | .directConfirmed => .ok (.inr none)
    | .prConfirmed =>
        match row.prNumber with
        | none =>
            .error (planInputError s!"pr_confirmed 행에 PR 번호가 없다: 서수 {row.mergeSeq}")
        | some prNumber =>
            if row.existingPr.isSome ∧ row.existingPr ≠ some prNumber then
              .ok (.inl .canonicalMismatch)
            else if taken prNumber then .ok (.inl .mappingConflict)
            else if mergeNumberMax < headNumber + 1 then .ok (.inl .numberCapacityExceeded)
            else .ok (.inr (some prNumber))

/-- The walk after a row that is passed. -/
def PlanWalk.move (walk : PlanWalk) (row : PlanRow) : Option Int → PlanWalk
  | none => walk.passDirect row
  | some prNumber => walk.assign row prNumber

/-- The pull requests that no later row may take. -/
def PlanInput.taken (input : PlanInput) (walk : PlanWalk) (prNumber : Int) : Bool :=
  prNumber ∈ walk.numberedThisRound ∨ input.isAlreadyNumbered prNumber

/-- The variables of the loop enter the judgement of a row in two places only. -/
theorem planRow_eq (input : PlanInput) (row : PlanRow) (walk : PlanWalk) :
    planRow input row walk =
      (rowVerdict row walk.headNumber (input.taken walk)).map (Sum.map id (walk.move row)) := by
  unfold planRow rowVerdict
  split
  · rfl
  · cases row.decision with
    | unresolved => rfl
    | directConfirmed => rfl
    | prConfirmed =>
      cases row.prNumber with
      | none => rfl
      | some prNumber =>
        simp only [PlanInput.taken, decide_eq_true_eq]
        split
        · rfl
        · split
          · rfl
          · split <;> rfl

@[simp] theorem PlanWalk.move_headSeq (walk : PlanWalk) (row : PlanRow) (entry : Option Int) :
    (walk.move row entry).headSeq = row.mergeSeq := by
  cases entry <;> rfl

@[simp] theorem PlanWalk.move_headNumber (walk : PlanWalk) (row : PlanRow) (entry : Option Int) :
    (walk.move row entry).headNumber = walk.headNumber + total [entry] := by
  cases entry with
  | none => simp [move, passDirect]
  | some prNumber => rfl

variable {row : PlanRow} {deadline : Option Instant} {before after : List PlanRow}
  {result : PlanResult}

variable {headNumber headSeq : Int} {taken : Int → Bool} {reading : Nat} {passed : List PlanRow}
  {entries : List (Option Int)}

/-- A row takes a number only within the capacity. -/
theorem headNumber_le_of_verdict {prNumber : Int}
    (verdict : rowVerdict row headNumber taken = .ok (.inr (some prNumber))) :
    headNumber + 1 ≤ mergeNumberMax := by
  unfold rowVerdict at verdict
  split at verdict
  · cases verdict
  · split at verdict
    · cases verdict
    · cases verdict
    · split at verdict
      · cases verdict
      · split at verdict
        · cases verdict
        · split at verdict
          · cases verdict
          · split at verdict
            · cases verdict
            · omega

/-! ### What a batch leaves to the next -/

/-- The walk has met a reason to stop, or the end of its time. -/
def PlanResult.stopped (result : PlanResult) : Bool :=
  result.blocked.isSome || result.budgetExhausted

/-- The result of two batches together. -/
def PlanResult.followedBy (done rest : PlanResult) : PlanResult where
  assignments := done.assignments ++ rest.assignments
  nextHeadSeq := rest.nextHeadSeq
  nextHeadNumber := rest.nextHeadNumber
  blocked := rest.blocked
  orderMismatches := done.orderMismatches + rest.orderMismatches
  orderUnknown := done.orderUnknown + rest.orderUnknown
  budgetExhausted := rest.budgetExhausted

/-- The merge time that the next one is compared with. -/
def lastMergedAt (previous : Option Instant) (assignments : List PlanAssignment) :
    Option Instant :=
  assignments.foldl (fun last assignment => assignment.mergedAt.or last) previous

/-- The second batch, planned after `readings` rows of the first: its own time starts at `started`,
and it gets what is left of the budget. -/
def PlanInput.next (input : PlanInput) (done : PlanResult) (readings : Nat)
    (rows : List PlanRow) (started : Instant) : PlanInput where
  checkpoint := ⟨done.nextHeadSeq, done.nextHeadNumber⟩
  rows := rows
  previousAssignedMergedAt := lastMergedAt input.previousAssignedMergedAt done.assignments
  isAlreadyNumbered prNumber :=
    input.isAlreadyNumbered prNumber || prNumber ∈ done.assignments.map PlanAssignment.prNumber
  budgetMs := input.budgetMs.map fun budget => input.now 0 + budget - started
  now reading := if reading = 0 then started else input.now (readings + reading)

/-- The walk that a result continues as. -/
def PlanInput.resumed (input : PlanInput) (done : PlanResult) : PlanWalk where
  headSeq := done.nextHeadSeq
  headNumber := done.nextHeadNumber
  assignments := done.assignments
  numberedThisRound := done.assignments.map PlanAssignment.prNumber
  previousMergedAt := lastMergedAt input.previousAssignedMergedAt done.assignments
  orderMismatches := done.orderMismatches
  orderUnknown := done.orderUnknown

@[simp] theorem PlanWalk.stopped_stop (walk : PlanWalk) (blocked : Option Blocked)
    (exhausted : Bool) : (walk.stop blocked exhausted).stopped = (blocked.isSome || exhausted) :=
  rfl

/-! ### What holds of the walk after each row -/

/-- Nothing in the walk is more than its assignments tell. -/
structure PlanInput.Threaded (input : PlanInput) (walk : PlanWalk) : Prop where
  numbered : walk.numberedThisRound = walk.assignments.map PlanAssignment.prNumber
  mergedAt : walk.previousMergedAt = lastMergedAt input.previousAssignedMergedAt walk.assignments

/-- The head of the walk is a checkpoint that a plan accepts. -/
structure PlanWalk.Sane (walk : PlanWalk) : Prop where
  headSeq : isSafeInteger walk.headSeq = true
  headSeq_nonneg : 0 ≤ walk.headSeq
  headNumber : isSafeInteger walk.headNumber = true
  headNumber_nonneg : 0 ≤ walk.headNumber
  bounded : walk.headNumber ≤ walk.headSeq

theorem PlanInput.Threaded.resumed_stop {input : PlanInput} {walk : PlanWalk}
    (threaded : input.Threaded walk) (blocked : Option Blocked) (exhausted : Bool) :
    input.resumed (walk.stop blocked exhausted) = walk := by
  obtain ⟨numbered, mergedAt⟩ := threaded
  cases walk
  simp only [PlanInput.resumed, PlanWalk.stop] at numbered mergedAt ⊢
  rw [numbered, mergedAt]

theorem PlanInput.Threaded.move {input : PlanInput} {walk : PlanWalk}
    (threaded : input.Threaded walk) (row : PlanRow) (entry : Option Int) :
    input.Threaded (walk.move row entry) := by
  obtain ⟨numbered, mergedAt⟩ := threaded
  cases entry with
  | none => exact ⟨numbered, mergedAt⟩
  | some prNumber =>
    refine ⟨?_, ?_⟩
    · simp [PlanWalk.move, PlanWalk.assign, numbered]
    · cases time : row.mergedAt with
      | none => simpa [PlanWalk.move, PlanWalk.assign, PlanWalk.compareMergedAt, lastMergedAt, time]
          using mergedAt
      | some _ => simp [PlanWalk.move, PlanWalk.assign, PlanWalk.compareMergedAt, lastMergedAt,
          time]

theorem PlanWalk.Sane.move {walk : PlanWalk} (sane : walk.Sane) {entry : Option Int}
    (safe : isSafeInteger row.mergeSeq = true) (inOrder : row.mergeSeq = walk.headSeq + 1)
    (verdict : rowVerdict row walk.headNumber taken = .ok (.inr entry)) :
    (walk.move row entry).Sane := by
  obtain ⟨headSeq, headSeq_nonneg, headNumber, headNumber_nonneg, bounded⟩ := sane
  cases entry with
  | none =>
    refine ⟨safe, ?_, headNumber, headNumber_nonneg, ?_⟩
    · rw [PlanWalk.move_headSeq]
      omega
    · rw [PlanWalk.move_headSeq, PlanWalk.move_headNumber, total_none, total_nil]
      omega
  | some prNumber =>
    have capacity := headNumber_le_of_verdict verdict
    have next : (walk.move row (some prNumber)).headNumber = walk.headNumber + 1 := rfl
    refine ⟨safe, ?_, ?_, ?_, ?_⟩
    · rw [PlanWalk.move_headSeq]
      omega
    · rw [next]
      exact decide_eq_true ⟨by unfold maxSafeInteger; omega, capacity⟩
    · rw [next]
      omega
    · rw [next, PlanWalk.move_headSeq]
      omega

/-! ### The loop over two lists -/

/-- A walk over two lists is a walk over the first, resumed over the second. -/
theorem planRows_append {input : PlanInput} {walk : PlanWalk} (threaded : input.Threaded walk)
    (reading : Nat) (first second : List PlanRow) :
    planRows input deadline reading (first ++ second) walk =
      (planRows input deadline reading first walk).bind fun done =>
        if done.stopped then .ok done
        else planRows input deadline (reading + first.length) second (input.resumed done) := by
  induction first generalizing reading walk with
  | nil => simp [planRows, Except.bind, threaded.resumed_stop]
  | cons row rest ih =>
    simp only [List.cons_append, planRows]
    split
    · rfl
    · split
      · rfl
      · rw [planRow_eq]
        cases rowVerdict row walk.headNumber (input.taken walk) with
        | error fault => rfl
        | ok verdict =>
          cases verdict with
          | inl reason => rfl
          | inr entry =>
            have later := ih (threaded.move row entry) (reading + 1)
            simp only [Except.map, Sum.map_inr, later, List.length_cons]
            congr 1
            funext done
            rw [Nat.add_right_comm, Nat.add_assoc]

/-- The head of a walk that ends is one that a plan accepts. -/
theorem planRows_sane {input : PlanInput} {rows : List PlanRow} {walk : PlanWalk}
    {done : PlanResult} (sane : walk.Sane)
    (planned : planRows input deadline reading rows walk = .ok done) :
    (input.resumed done).Sane := by
  -- every way to stop leaves the head of the walk as the checkpoint
  have stop : ∀ {walk : PlanWalk} (blocked : Option Blocked) (exhausted : Bool), walk.Sane →
      (input.resumed (walk.stop blocked exhausted)).Sane :=
    fun _ _ sane => ⟨sane.1, sane.2, sane.3, sane.4, sane.5⟩
  induction rows generalizing reading walk with
  | nil =>
    cases planned
    exact stop none false sane
  | cons row rest ih =>
    simp only [planRows] at planned
    split at planned
    · cases planned
    next inOrder =>
      simp only [not_or, not_not] at inOrder
      split at planned
      · cases planned
        exact stop none true sane
      · rw [planRow_eq] at planned
        cases verdict : rowVerdict row walk.headNumber (input.taken walk) with
        | error fault =>
          rw [verdict] at planned
          cases planned
        | ok outcome =>
          rw [verdict] at planned
          cases outcome with
          | inl reason =>
            cases planned
            exact stop _ false sane
          | inr entry => exact ih (sane.move inOrder.1 inOrder.2 verdict) planned

/-! ### Starting over at the checkpoint -/

/-- One walk has done the work of `done` before; the other starts at its checkpoint and knows of
it from its input. -/
structure Continues (input next : PlanInput) (done : PlanResult) (walk fresh : PlanWalk) :
    Prop where
  headSeq : walk.headSeq = fresh.headSeq
  headNumber : walk.headNumber = fresh.headNumber
  assignments : walk.assignments = done.assignments ++ fresh.assignments
  taken : input.taken walk = next.taken fresh
  mergedAt : walk.previousMergedAt = fresh.previousMergedAt
  mismatches : walk.orderMismatches = done.orderMismatches + fresh.orderMismatches
  unknown : walk.orderUnknown = done.orderUnknown + fresh.orderUnknown

namespace Continues

variable {input next : PlanInput} {done : PlanResult} {walk fresh : PlanWalk}

theorem stop (related : Continues input next done walk fresh) (blocked : Option Blocked)
    (exhausted : Bool) :
    walk.stop blocked exhausted = done.followedBy (fresh.stop blocked exhausted) := by
  simp [PlanWalk.stop, PlanResult.followedBy, related.headSeq, related.headNumber,
    related.assignments, related.mismatches, related.unknown]

theorem move (related : Continues input next done walk fresh) (row : PlanRow)
    (entry : Option Int) : Continues input next done (walk.move row entry) (fresh.move row entry) := by
  obtain ⟨headSeq, headNumber, assignments, taken, mergedAt, mismatches, unknown⟩ := related
  cases entry with
  | none => exact ⟨rfl, headNumber, assignments, taken, mergedAt, mismatches, unknown⟩
  | some prNumber =>
    have grown : input.taken (walk.assign row prNumber) = next.taken (fresh.assign row prNumber) := by
      funext other
      have same := congrFun taken other
      simp only [PlanInput.taken, PlanWalk.assign, List.mem_append, decide_eq_decide] at same ⊢
      rw [or_right_comm, same, or_right_comm]
    cases time : row.mergedAt with
    | none =>
      exact ⟨rfl, by simp [PlanWalk.move, PlanWalk.assign, headNumber],
        by simp [PlanWalk.move, PlanWalk.assign, assignments, headNumber], grown,
        by simpa [PlanWalk.move, PlanWalk.assign, PlanWalk.compareMergedAt, time] using mergedAt,
        by simpa [PlanWalk.move, PlanWalk.assign, PlanWalk.compareMergedAt, time] using mismatches,
        by simp [PlanWalk.move, PlanWalk.assign, PlanWalk.compareMergedAt, time, unknown, Nat.add_assoc]⟩
    | some instant =>
      refine ⟨rfl, by simp [PlanWalk.move, PlanWalk.assign, headNumber],
        by simp [PlanWalk.move, PlanWalk.assign, assignments, headNumber], grown,
        by simp [PlanWalk.move, PlanWalk.assign, PlanWalk.compareMergedAt, time], ?_,
        by simpa [PlanWalk.move, PlanWalk.assign, PlanWalk.compareMergedAt, time] using unknown⟩
      simp only [PlanWalk.move, PlanWalk.assign, PlanWalk.compareMergedAt, time, mergedAt,
        mismatches]
      split
      · exact Nat.add_assoc ..
      · rfl

end Continues

theorem planRows_continues {input next : PlanInput} {done : PlanResult} {walk fresh : PlanWalk}
    {readings : Nat}
    (clock : ∀ reading, 0 < reading → next.now reading = input.now (readings + reading))
    (related : Continues input next done walk fresh) (begun : 0 < reading) (rows : List PlanRow) :
    planRows input deadline (readings + reading) rows walk =
      (planRows next deadline reading rows fresh).map done.followedBy := by
  induction rows generalizing reading walk fresh with
  | nil => simp [planRows, Except.map, related.stop]
  | cons row rest ih =>
    simp only [planRows, related.headSeq, clock reading begun, planRow_eq, related.headNumber,
      related.taken]
    split
    · rfl
    · split
      · simp only [Except.map, related.stop]
      · cases rowVerdict row fresh.headNumber (next.taken fresh) with
        | error fault => rfl
        | ok verdict =>
          cases verdict with
          | inl reason => simp only [Except.map, Sum.map_inl, related.stop, id]
          | inr entry =>
            exact ih (related.move row entry) (Nat.succ_pos reading)

/-! ### Two batches -/

/-- The walk that a plan starts with. -/
def PlanInput.begun (input : PlanInput) : PlanWalk :=
  ⟨input.checkpoint.headSeq, input.checkpoint.headNumber, [], [], input.previousAssignedMergedAt,
    0, 0⟩

/-- The loop reads its rows from its argument. -/
theorem planRows_rows (input : PlanInput) (rows : List PlanRow) (deadline : Option Instant)
    (reading : Nat) (list : List PlanRow) (walk : PlanWalk) :
    planRows { input with rows := rows } deadline reading list walk =
      planRows input deadline reading list walk := by
  induction list generalizing reading walk with
  | nil => rfl
  | cons row rest ih =>
    simp only [planRows, ih]
    rfl

theorem planMergeNumbers_of_sane {input : PlanInput} (sane : input.begun.Sane) :
    planMergeNumbers input =
      planRows input (input.budgetMs.map (input.now 0 + ·)) 1 input.rows input.begun := by
  obtain ⟨headSeq, headSeq_nonneg, headNumber, headNumber_nonneg, bounded⟩ := sane
  simp only [PlanInput.begun] at headSeq headSeq_nonneg headNumber headNumber_nonneg bounded
  unfold planMergeNumbers
  dsimp only
  rw [if_neg (by simp [headSeq, headNumber, headSeq_nonneg, headNumber_nonneg]),
    if_neg (by omega)]
  rfl

theorem planMergeNumbers_rows {input : PlanInput} (sane : input.begun.Sane)
    (rows : List PlanRow) :
    planMergeNumbers { input with rows := rows } =
      planRows input (input.budgetMs.map (input.now 0 + ·)) 1 rows input.begun := by
  have whole : ({ input with rows := rows } : PlanInput).begun.Sane := sane
  exact (planMergeNumbers_of_sane whole).trans (planRows_rows ..)

/-- A checkpoint that no plan accepts is refused whatever the rows are. -/
theorem planMergeNumbers_of_not_sane {input : PlanInput} (insane : ¬ input.begun.Sane) :
    ∃ fault, ∀ rows, planMergeNumbers { input with rows := rows } = .error fault := by
  unfold planMergeNumbers
  dsimp only
  split
  · exact ⟨_, fun _ => rfl⟩
  next safe =>
    split
    · exact ⟨_, fun _ => rfl⟩
    next bounded =>
      simp only [not_or, not_not] at safe
      exact absurd ⟨safe.1, Int.not_lt.mp safe.2.1, safe.2.2.1, Int.not_lt.mp safe.2.2.2,
        Int.not_lt.mp bounded⟩ insane

/-- The rest of a plan, from its checkpoint or in the same walk. -/
theorem planMergeNumbers_next {input : PlanInput} {done : PlanResult}
    (sane : (input.resumed done).Sane) (readings : Nat) (rows : List PlanRow)
    (started : Instant) :
    planRows input (input.budgetMs.map (input.now 0 + ·)) (readings + 1) rows
        (input.resumed done) =
      (planMergeNumbers (input.next done readings rows started)).map done.followedBy := by
  have begun : (input.next done readings rows started).begun.Sane :=
    ⟨sane.1, sane.2, sane.3, sane.4, sane.5⟩
  have deadline : (input.next done readings rows started).budgetMs.map
      ((input.next done readings rows started).now 0 + ·) =
        input.budgetMs.map (input.now 0 + ·) := by
    simp only [PlanInput.next, if_true, Option.map_map]
    congr 1
    funext budget
    exact (Int.add_comm ..).trans (Int.sub_add_cancel (input.now 0 + budget) started)
  rw [planMergeNumbers_of_sane begun, deadline]
  apply planRows_continues
  · intro reading later
    simp only [PlanInput.next, if_neg (Nat.pos_iff_ne_zero.mp later)]
  · exact {
      headSeq := rfl
      headNumber := rfl
      assignments := by simp [PlanInput.resumed, PlanInput.begun]
      taken := by
        funext prNumber
        simp [PlanInput.taken, PlanInput.resumed, PlanInput.begun, PlanInput.next, or_comm]
      mergedAt := rfl
      mismatches := rfl
      unknown := rfl }
  · exact Nat.one_pos

theorem planMergeNumbers_append (input : PlanInput) (first second : List PlanRow)
    (started : Instant) :
    planMergeNumbers { input with rows := first ++ second } =
      (planMergeNumbers { input with rows := first }).bind fun done =>
        if done.stopped then .ok done
        else (planMergeNumbers (input.next done first.length second started)).map
          done.followedBy := by
  by_cases sane : input.begun.Sane
  · have threaded : input.Threaded input.begun := ⟨rfl, rfl⟩
    rw [planMergeNumbers_rows sane, planMergeNumbers_rows sane, planRows_append threaded]
    cases planned : planRows input (input.budgetMs.map (input.now 0 + ·)) 1 first input.begun with
    | error fault => rfl
    | ok done =>
      simp only [Except.bind]
      split
      · rfl
      · rw [Nat.add_comm]
        exact planMergeNumbers_next (planRows_sane sane planned) first.length second started
  · obtain ⟨fault, refused⟩ := planMergeNumbers_of_not_sane sane
    rw [refused, refused]
    rfl

/-! ### The numbers of a plan -/

theorem assigned_numbers (headSeq headNumber : Int) (entries : List (Option Int)) :
    (assigned headSeq headNumber entries).map MergeNumberAssignment.mergeNumber =
      (List.range (total entries)).map fun i : Nat => headNumber + 1 + (i : Int) := by
  induction entries generalizing headSeq headNumber with
  | nil => simp
  | cons entry rest ih =>
    cases entry with
    | none => rw [assigned_none, ih, total_none]
    | some prNumber =>
      rw [assigned_some, List.map_cons, ih, total_some, List.range_succ_eq_map]
      simp only [List.map_cons, List.map_map]
      congr 1
      · simp
      · apply List.map_congr_left
        intro i _
        simp only [Function.comp_apply]
        push_cast
        omega

/-- A number belongs to a row that the walk has passed. -/
theorem Passed.assigned_row (walked : Passed headSeq passed entries) {a : MergeNumberAssignment}
    (given : a ∈ assigned headSeq headNumber entries) :
    ∃ row ∈ passed, row.mergeSeq = a.mergeSeq ∧ row.prNumber = some a.prNumber := by
  induction walked generalizing headNumber with
  | nil => cases given
  | @cons headSeq row rows entry entries next decides rest ih =>
    cases decides with
    | direct decision =>
      obtain ⟨found, member, same⟩ := ih given
      exact ⟨found, List.mem_cons_of_mem _ member, same⟩
    | pr prNumber decision confirmed compatible =>
      rw [assigned_some, List.mem_cons] at given
      rcases given with rfl | given
      · exact ⟨row, List.mem_cons_self, next, confirmed⟩
      · obtain ⟨found, member, same⟩ := ih given
        exact ⟨found, List.mem_cons_of_mem _ member, same⟩

/-- The walk never passes an undecided row, so all it has passed comes before. -/
theorem Passed.before_unresolved {rest : List PlanRow} (walked : Passed headSeq passed entries)
    (split : passed ++ rest = before ++ row :: after) (unresolved : row.decision = .unresolved) :
    passed <+: before := by
  rcases List.append_eq_append_iff.mp split with ⟨more, whole, -⟩ | ⟨more, whole, tail⟩
  · exact ⟨more, whole.symm⟩
  · cases more with
    | nil => exact ⟨[], by simpa using whole⟩
    | cons first more =>
      obtain ⟨rfl, -⟩ := List.cons.inj tail
      obtain ⟨entry, decides⟩ := walked.decides row (by simp [whole])
      cases decides <;> simp_all

theorem planMergeNumbers_numbers {input : PlanInput} (planned : planMergeNumbers input = .ok result) :
    result.assignments.map PlanAssignment.mergeNumber =
        (List.range result.assignments.length).map fun i : Nat =>
          input.checkpoint.headNumber + 1 + (i : Int) := by
  obtain ⟨passed, rest, entries, -, -, -, -, written⟩ := planMergeNumbers_passed planned
  have numbers := congrArg (List.map MergeNumberAssignment.mergeNumber) written
  rw [assigned_numbers, List.map_map] at numbers
  have length : result.assignments.length = total entries := by
    simpa using congrArg List.length numbers
  rw [length, ← numbers]
  rfl

/-- Each assignment is made for a row before any undecided one. -/
theorem planMergeNumbers_unresolved {input : PlanInput}
    (planned : planMergeNumbers input = .ok result) (split : input.rows = before ++ row :: after)
    (unresolved : row.decision = .unresolved) :
    ∀ a ∈ result.assignments, ∃ earlier ∈ before,
      earlier.mergeSeq = a.mergeSeq ∧ earlier.prNumber = some a.prNumber := by
  intro a member
  obtain ⟨passed, rest, entries, whole, walked, -, -, written⟩ := planMergeNumbers_passed planned
  have given : a.written ∈
      assigned input.checkpoint.headSeq input.checkpoint.headNumber entries := by
    rw [← written]
    exact List.mem_map_of_mem member
  obtain ⟨earlier, member, seq, number⟩ := walked.assigned_row given
  have within := walked.before_unresolved (whole.symm.trans split) unresolved
  exact ⟨earlier, within.subset member, seq, number⟩

/-- With the rows in order, no number goes to an undecided row or a later one. -/
theorem planMergeNumbers_stops {input : PlanInput} (planned : planMergeNumbers input = .ok result)
    (increasing : input.rows.Pairwise fun a b => a.mergeSeq < b.mergeSeq)
    (split : input.rows = before ++ row :: after) (unresolved : row.decision = .unresolved) :
    ∀ a ∈ result.assignments, ∀ later ∈ row :: after, a.mergeSeq ≠ later.mergeSeq := by
  intro a member later behind same
  obtain ⟨earlier, member, seq, -⟩ := planMergeNumbers_unresolved planned split unresolved a member
  rw [split] at increasing
  have less := (List.pairwise_append.mp increasing).2.2 earlier member later behind
  omega

/-! ### Batches compose -/

/-- Planning in two batches gives the plan of the whole list: the result of the first where that
one stops, and otherwise both results together. -/
theorem planMergeNumbers_batches (input : PlanInput) (first second : List PlanRow)
    (increasing : (first ++ second).Pairwise fun a b => a.mergeSeq < b.mergeSeq) :
    (∀ started, planMergeNumbers { input with rows := first ++ second } =
      (planMergeNumbers { input with rows := first }).bind fun done =>
        if done.stopped then .ok done
        else (planMergeNumbers (input.next done first.length second started)).map
          done.followedBy) ∧
    ∀ result, planMergeNumbers { input with rows := first ++ second } = .ok result →
      result.assignments.map PlanAssignment.mergeNumber =
          ((List.range result.assignments.length).map fun i : Nat =>
            input.checkpoint.headNumber + 1 + (i : Int)) ∧
        ∀ before row after, first ++ second = before ++ row :: after →
          row.decision = .unresolved →
          ∀ a ∈ result.assignments, ∀ later ∈ row :: after, a.mergeSeq ≠ later.mergeSeq := by
  refine ⟨planMergeNumbers_append input first second, ?_⟩
  intro result planned
  have numbers := planMergeNumbers_numbers planned
  refine ⟨numbers, ?_⟩
  intro before row after split unresolved
  have stops := planMergeNumbers_stops planned increasing split unresolved
  exact stops

/-- Three pull requests, merged one after another. -/
def mergedRow (mergeSeq prNumber : Int) : PlanRow :=
  ⟨mergeSeq, "", .prConfirmed, some prNumber, none, none, none, some mergeSeq⟩

/-- A plan of no rows at the start of the numbering, with a budget and a clock. -/
def freshPlan (budgetMs : Option Int) (now : Nat → Instant) : PlanInput :=
  ⟨⟨0, 0⟩, [], none, fun _ => false, budgetMs, now⟩

theorem planMergeNumbers_batches_two :
    [mergedRow 1 21, mergedRow 2 25].Pairwise (fun a b => a.mergeSeq < b.mergeSeq) ∧
      (planMergeNumbers { freshPlan none fun _ => 0 with
        rows := [mergedRow 1 21] ++ [mergedRow 2 25] } =
        .ok ⟨[⟨1, 21, 1, some 1⟩, ⟨2, 25, 2, some 2⟩], 2, 2, none, 0, 0, false⟩) ∧
      ∀ started, planMergeNumbers { freshPlan none fun _ => 0 with
          rows := [mergedRow 1 21] ++ [mergedRow 2 25] } =
        (planMergeNumbers { freshPlan none fun _ => 0 with rows := [mergedRow 1 21] }).bind
          fun done => if done.stopped then .ok done
          else (planMergeNumbers ((freshPlan none fun _ => 0).next done 1 [mergedRow 2 25]
            started)).map done.followedBy :=
  ⟨by decide, by decide,
    (planMergeNumbers_batches (freshPlan none fun _ => 0) [mergedRow 1 21] [mergedRow 2 25]
      (by decide)).1⟩

/-- A walk that runs out of time is not blocked, but it has not come to the end of its batch: the
rows that follow do not continue it. -/
theorem exhausted_batch_not_continued :
    (planMergeNumbers { freshPlan (some 1) (fun reading => 2 * reading) with
        rows := [mergedRow 1 21] ++ [mergedRow 2 25] } =
      .ok ⟨[], 0, 0, none, 0, 0, true⟩) ∧
    planMergeNumbers { freshPlan (some 1) (fun reading => 2 * reading) with
        rows := [mergedRow 1 21] } = .ok ⟨[], 0, 0, none, 0, 0, true⟩ ∧
    (∀ taken : Int → Bool, ∀ budgetMs : Option Int, ∀ now : Nat → Instant,
      planMergeNumbers ⟨⟨0, 0⟩, [mergedRow 2 25], none, taken, budgetMs, now⟩ =
        .error (planInputError "행이 연속이 아니다: 1을 기대했는데 2이다")) := by
  refine ⟨by decide, by decide, ?_⟩
  intro taken budgetMs now
  rfl

end PrSearch.MergeNumber
