import PrSearch.Lib.Tally
import PrSearch.Sequence.Store

/-! # Planning merge numbers: `planMergeNumbers`

From the row after the checkpoint on, in sequence order: a row with a confirmed pull request takes
the next number, a confirmed direct push is passed without one, and an undecided row stops the walk.
What the walk has passed is a list of entries, one for each row; the numbers it gives are the tally
of that list, continued from the checkpoint.
-/
namespace PrSearch.MergeNumber

open Sequence Tally

inductive PlanDecision
  | prConfirmed
  | directConfirmed
  | unresolved
  deriving DecidableEq, Repr

structure PlanRow where
  mergeSeq : Int
  sha : Sha
  decision : PlanDecision
  prNumber : Option Int
  reason : Option BlockReason
  existingNumber : Option Int
  existingPr : Option Int
  mergedAt : Option Instant
  deriving DecidableEq, Repr

structure Checkpoint where
  headSeq : Int
  headNumber : Int
  deriving DecidableEq, Repr

structure PlanInput where
  checkpoint : Checkpoint
  rows : List PlanRow
  previousAssignedMergedAt : Option Instant
  isAlreadyNumbered : Int → Bool
  budgetMs : Option Int
  /-- The readings of the clock, in the order in which they are taken. -/
  now : Nat → Instant

structure PlanAssignment where
  mergeSeq : Int
  prNumber : Int
  mergeNumber : Int
  mergedAt : Option Instant
  deriving DecidableEq, Repr

structure PlanResult where
  assignments : List PlanAssignment
  nextHeadSeq : Int
  nextHeadNumber : Int
  blocked : Option Blocked
  orderMismatches : Nat
  orderUnknown : Nat
  budgetExhausted : Bool
  deriving DecidableEq, Repr

/-- `Number.MAX_SAFE_INTEGER` -/
def maxSafeInteger : Int := 9007199254740991

def isSafeInteger (n : Int) : Bool := -maxSafeInteger ≤ n ∧ n ≤ maxSafeInteger

/-- `PlanInputError` -/
def planInputError (message : String) : Fault := .error message

/-! ### The walk -/

/-- The variables of the loop. -/
structure PlanWalk where
  headSeq : Int
  headNumber : Int
  assignments : List PlanAssignment
  numberedThisRound : List Int
  previousMergedAt : Option Instant
  orderMismatches : Nat
  orderUnknown : Nat
  deriving DecidableEq, Repr

namespace PlanWalk

def stop (walk : PlanWalk) (blocked : Option Blocked) (budgetExhausted : Bool) : PlanResult where
  assignments := walk.assignments
  nextHeadSeq := walk.headSeq
  nextHeadNumber := walk.headNumber
  blocked := blocked
  orderMismatches := walk.orderMismatches
  orderUnknown := walk.orderUnknown
  budgetExhausted := budgetExhausted

/-- A confirmed direct push neither takes nor uses up a number. -/
def passDirect (walk : PlanWalk) (row : PlanRow) : PlanWalk := { walk with headSeq := row.mergeSeq }

/-- The order of the merge times is counted, and stops nothing. -/
def compareMergedAt (walk : PlanWalk) : Option Instant → PlanWalk
  | none => { walk with orderUnknown := walk.orderUnknown + 1 }
  | some mergedAt =>
      { walk with
        orderMismatches :=
          if walk.previousMergedAt.any (mergedAt < ·) then walk.orderMismatches + 1
          else walk.orderMismatches
        previousMergedAt := some mergedAt }

def assign (walk : PlanWalk) (row : PlanRow) (prNumber : Int) : PlanWalk :=
  { walk.compareMergedAt row.mergedAt with
    assignments := walk.assignments ++
      [⟨row.mergeSeq, prNumber, walk.headNumber + 1, row.mergedAt⟩]
    numberedThisRound := walk.numberedThisRound ++ [prNumber]
    headSeq := row.mergeSeq
    headNumber := walk.headNumber + 1 }

end PlanWalk

/-- A number beyond the checkpoint may only be the one this walk is about to give. -/
def PlanRow.idempotent (row : PlanRow) (headNumber : Int) : Bool :=
  row.decision = .prConfirmed ∧ row.prNumber.isSome ∧ row.existingPr = row.prNumber ∧
    row.existingNumber = some (headNumber + 1)

/-- One row: the reason to stop before it, or the walk after it. -/
def planRow (input : PlanInput) (row : PlanRow) (walk : PlanWalk) :
    Except Fault (BlockReason ⊕ PlanWalk) :=
  if row.existingNumber.isSome ∧ ¬ row.idempotent walk.headNumber then
    .ok (.inl .canonicalMismatch)
  else
    match row.decision with
    | .unresolved => .ok (.inl (row.reason.getD .prEvidencePending))
    | .directConfirmed => .ok (.inr (walk.passDirect row))
    | .prConfirmed =>
        match row.prNumber with
        | none =>
            .error (planInputError s!"pr_confirmed 행에 PR 번호가 없다: 서수 {row.mergeSeq}")
        | some prNumber =>
            if row.existingPr.isSome ∧ row.existingPr ≠ some prNumber then
              .ok (.inl .canonicalMismatch)
            else if prNumber ∈ walk.numberedThisRound ∨ input.isAlreadyNumbered prNumber then
              .ok (.inl .mappingConflict)
            else if mergeNumberMax < walk.headNumber + 1 then
              .ok (.inl .numberCapacityExceeded)
            else .ok (.inr (walk.assign row prNumber))

/-- The loop over the rows; `reading` counts the clock readings so far. -/
def planRows (input : PlanInput) (deadline : Option Instant) :
    Nat → List PlanRow → PlanWalk → Except Fault PlanResult
  | _, [], walk => .ok (walk.stop none false)
  | reading, row :: rest, walk =>
      if ¬ isSafeInteger row.mergeSeq ∨ row.mergeSeq ≠ walk.headSeq + 1 then
        .error (planInputError
          s!"행이 연속이 아니다: {walk.headSeq + 1}을 기대했는데 {row.mergeSeq}이다")
      else if deadline.any (· < input.now reading) then .ok (walk.stop none true)
      else
        match planRow input row walk with
        | .error fault => .error fault
        | .ok (.inl reason) => .ok (walk.stop (some ⟨row.mergeSeq, reason⟩) false)
        | .ok (.inr next) => planRows input deadline (reading + 1) rest next

def planMergeNumbers (input : PlanInput) : Except Fault PlanResult :=
  let headSeq := input.checkpoint.headSeq
  let headNumber := input.checkpoint.headNumber
  let deadline := input.budgetMs.map (input.now 0 + ·)
  if ¬ isSafeInteger headSeq ∨ headSeq < 0 ∨ ¬ isSafeInteger headNumber ∨ headNumber < 0 then
    .error (planInputError s!"checkpoint가 비음수 정수가 아니다: {headSeq}/{headNumber}")
  else if headSeq < headNumber then
    .error (planInputError s!"번호 수가 확인한 행 수보다 크다: {headNumber} > {headSeq}")
  else
    planRows input deadline 1 input.rows
      ⟨headSeq, headNumber, [], [], input.previousAssignedMergedAt, 0, 0⟩

/-! ### What the walk has passed -/

/-- The row is decided: a direct push, or a pull request that the table does not contradict. -/
inductive Decides (row : PlanRow) : Option Int → Prop
  | direct (decision : row.decision = .directConfirmed) : Decides row none
  | pr (prNumber : Int) (decision : row.decision = .prConfirmed)
      (confirmed : row.prNumber = some prNumber)
      (compatible : row.existingPr = none ∨ row.existingPr = some prNumber) :
      Decides row (some prNumber)

/-- The rows right after `headSeq`, one after another, with what was decided of each. -/
inductive Passed : Int → List PlanRow → List (Option Int) → Prop
  | nil (headSeq : Int) : Passed headSeq [] []
  | cons {headSeq : Int} {row : PlanRow} {rows : List PlanRow} {entry : Option Int}
      {entries : List (Option Int)} (next : row.mergeSeq = headSeq + 1)
      (decides : Decides row entry) (rest : Passed (headSeq + 1) rows entries) :
      Passed headSeq (row :: rows) (entry :: entries)

/-- The assignments that a list of entries gives, continued from a checkpoint. -/
def assigned : Int → Int → List (Option Int) → List MergeNumberAssignment
  | _, _, [] => []
  | headSeq, headNumber, none :: rest => assigned (headSeq + 1) headNumber rest
  | headSeq, headNumber, some prNumber :: rest =>
      ⟨headSeq + 1, prNumber, headNumber + 1⟩ :: assigned (headSeq + 1) (headNumber + 1) rest

/-- What of an assignment goes into the table. -/
def PlanAssignment.written (assignment : PlanAssignment) : MergeNumberAssignment :=
  ⟨assignment.mergeSeq, assignment.prNumber, assignment.mergeNumber⟩

@[simp] theorem assigned_nil (headSeq headNumber : Int) : assigned headSeq headNumber [] = [] := rfl

@[simp] theorem assigned_none (headSeq headNumber : Int) (rest : List (Option Int)) :
    assigned headSeq headNumber (none :: rest) = assigned (headSeq + 1) headNumber rest := rfl

@[simp] theorem assigned_some (headSeq headNumber prNumber : Int) (rest : List (Option Int)) :
    assigned headSeq headNumber (some prNumber :: rest) =
      ⟨headSeq + 1, prNumber, headNumber + 1⟩ ::
        assigned (headSeq + 1) (headNumber + 1) rest := rfl

@[simp] theorem PlanWalk.stop_assignments (walk : PlanWalk) (blocked : Option Blocked)
    (exhausted : Bool) : (walk.stop blocked exhausted).assignments = walk.assignments := rfl

@[simp] theorem PlanWalk.stop_nextHeadSeq (walk : PlanWalk) (blocked : Option Blocked)
    (exhausted : Bool) : (walk.stop blocked exhausted).nextHeadSeq = walk.headSeq := rfl

@[simp] theorem PlanWalk.stop_nextHeadNumber (walk : PlanWalk) (blocked : Option Blocked)
    (exhausted : Bool) : (walk.stop blocked exhausted).nextHeadNumber = walk.headNumber := rfl

variable {input : PlanInput} {walk : PlanWalk} {result : PlanResult} {headSeq : Int}
  {entries : List (Option Int)}

variable {row : PlanRow} {next : PlanWalk} {passed : List PlanRow}

/-- A row that is passed is decided, and the walk moves by its entry. -/
theorem planRow_passes (passes : planRow input row walk = .ok (.inr next)) :
    ∃ entry, Decides row entry ∧ next.headSeq = row.mergeSeq ∧
      next.headNumber = walk.headNumber + total [entry] ∧
      next.assignments.map PlanAssignment.written =
        walk.assignments.map PlanAssignment.written ++
          assigned (row.mergeSeq - 1) walk.headNumber [entry] := by
  unfold planRow at passes
  split at passes
  · cases passes
  · split at passes
    · cases passes
    next direct =>
      cases passes
      exact ⟨none, .direct direct, rfl, by simp [PlanWalk.passDirect], by simp [PlanWalk.passDirect]⟩
    next confirmed =>
      split at passes
      · cases passes
      next prNumber found =>
        split at passes
        · cases passes
        next compatible =>
          split at passes
          · cases passes
          · split at passes
            · cases passes
            · cases passes
              refine ⟨some prNumber, .pr prNumber confirmed found ?_, rfl, rfl, ?_⟩
              · cases existing : row.existingPr with
                | none => exact Or.inl rfl
                | some other =>
                  rw [existing] at compatible
                  simp only [Option.isSome_some, true_and, not_not] at compatible
                  exact Or.inr compatible
              · simp [PlanWalk.assign, PlanAssignment.written]

/-- The result comes from a walk over a first part of the rows, which has given its entries their
numbers. -/
def Walks (walk : PlanWalk) (rows : List PlanRow) (result : PlanResult) : Prop :=
  ∃ passed rest entries, rows = passed ++ rest ∧ Passed walk.headSeq passed entries ∧
    result.nextHeadSeq = walk.headSeq + entries.length ∧
    result.nextHeadNumber = walk.headNumber + total entries ∧
    result.assignments.map PlanAssignment.written =
      walk.assignments.map PlanAssignment.written ++
        assigned walk.headSeq walk.headNumber entries

theorem walks_stop (walk : PlanWalk) (rows : List PlanRow) (blocked : Option Blocked)
    (exhausted : Bool) : Walks walk rows (walk.stop blocked exhausted) :=
  ⟨[], rows, [], rfl, .nil _, by simp, by simp, by simp⟩

/-- A row that is passed comes before the rest of the walk. -/
theorem Walks.cons {rest : List PlanRow} (inOrder : row.mergeSeq = walk.headSeq + 1)
    (passes : planRow input row walk = .ok (.inr next)) (later : Walks next rest result) :
    Walks walk (row :: rest) result := by
  obtain ⟨entry, decides, headSeq, headNumber, assignments⟩ := planRow_passes passes
  obtain ⟨passed, left, entries, rfl, walked, nextSeq, nextNumber, written⟩ := later
  rw [headSeq, inOrder] at walked nextSeq written
  rw [headNumber] at nextNumber written
  refine ⟨row :: passed, left, entry :: entries, rfl, .cons inOrder decides walked, ?_, ?_, ?_⟩
  · rw [nextSeq, List.length_cons]
    omega
  · rw [nextNumber]
    cases entry with
    | none => simp
    | some prNumber =>
      simp only [total_some, total_nil]
      omega
  · rw [written, assignments, inOrder, List.append_assoc]
    cases entry <;> simp

theorem planRows_walks {deadline : Option Instant} {reading : Nat} {rows : List PlanRow}
    (planned : planRows input deadline reading rows walk = .ok result) :
    Walks walk rows result := by
  induction rows generalizing reading walk with
  | nil =>
    cases planned
    exact walks_stop walk [] none false
  | cons row rest ih =>
    simp only [planRows] at planned
    split at planned
    · cases planned
    next inOrder =>
      simp only [not_or, not_not] at inOrder
      split at planned
      · cases planned
        exact walks_stop walk _ none true
      · split at planned
        · cases planned
        · cases planned
          exact walks_stop walk _ _ false
        next next passes => exact Walks.cons inOrder.2 passes (ih planned)

theorem planMergeNumbers_passed (planned : planMergeNumbers input = .ok result) :
    ∃ passed rest entries, input.rows = passed ++ rest ∧
      Passed input.checkpoint.headSeq passed entries ∧
      result.nextHeadSeq = input.checkpoint.headSeq + entries.length ∧
      result.nextHeadNumber = input.checkpoint.headNumber + total entries ∧
      result.assignments.map PlanAssignment.written =
        assigned input.checkpoint.headSeq input.checkpoint.headNumber entries := by
  unfold planMergeNumbers at planned
  dsimp only at planned
  split at planned
  · cases planned
  · split at planned
    · cases planned
    · simpa [Walks] using planRows_walks planned

/-- Each entry belongs to the row at its place. -/
theorem Passed.row_at (walked : Passed headSeq passed entries) {i : Nat} {entry : Option Int}
    (here : entries[i]? = some entry) :
    ∃ row ∈ passed, row.mergeSeq = headSeq + i + 1 ∧ Decides row entry := by
  induction walked generalizing i with
  | nil => cases here
  | @cons headSeq row rows first entries next decides rest ih =>
    cases i with
    | zero =>
      simp only [List.getElem?_cons_zero, Option.some.injEq] at here
      subst here
      exact ⟨row, List.mem_cons_self, by simpa using next, decides⟩
    | succ i =>
      simp only [List.getElem?_cons_succ] at here
      obtain ⟨found, member, seq, decided⟩ := ih here
      refine ⟨found, List.mem_cons_of_mem _ member, ?_, decided⟩
      rw [seq]
      push_cast
      omega

theorem Passed.decides (walked : Passed headSeq passed entries) :
    ∀ row ∈ passed, ∃ entry, Decides row entry := by
  induction walked with
  | nil => simp
  | cons next decides rest ih =>
    intro row member
    rcases List.mem_cons.mp member with rfl | member
    · exact ⟨_, decides⟩
    · exact ih row member

/-! ### The assignments of a list of entries -/

/-- An assignment is the number of an entry that holds a pull request. -/
theorem mem_assigned {headNumber : Int} {a : MergeNumberAssignment} :
    a ∈ assigned headSeq headNumber entries ↔
      ∃ (i n : Nat) (prNumber : Int), entries[i]? = some (some prNumber) ∧
        numberAt entries i = some n ∧ a = ⟨headSeq + i + 1, prNumber, headNumber + n⟩ := by
  induction entries generalizing headSeq headNumber with
  | nil => simp
  | cons entry rest ih =>
    cases entry with
    | none =>
      rw [assigned_none, ih]
      constructor
      · rintro ⟨i, n, prNumber, here, numbered, rfl⟩
        refine ⟨i + 1, n, prNumber, here, numbered, ?_⟩
        congr 1
        push_cast
        omega
      · rintro ⟨i, n, prNumber, here, numbered, rfl⟩
        cases i with
        | zero => cases numbered
        | succ i =>
          refine ⟨i, n, prNumber, here, numbered, ?_⟩
          congr 1
          push_cast
          omega
    | some first =>
      rw [assigned_some, List.mem_cons, ih]
      constructor
      · rintro (rfl | ⟨i, n, prNumber, here, numbered, rfl⟩)
        · exact ⟨0, 1, first, rfl, rfl, by simp⟩
        · refine ⟨i + 1, n + 1, prNumber, here, by simp [numbered], ?_⟩
          congr 1 <;> push_cast <;> omega
      · rintro ⟨i, n, prNumber, here, numbered, rfl⟩
        cases i with
        | zero =>
          cases here
          cases numbered
          exact Or.inl (by simp)
        | succ i =>
          obtain ⟨m, inner, rfl⟩ := Option.map_eq_some_iff.mp numbered
          refine Or.inr ⟨i, m, prNumber, here, inner, ?_⟩
          congr 1 <;> push_cast <;> omega

theorem assigned_nodup (headSeq headNumber : Int) (entries : List (Option Int)) :
    ((assigned headSeq headNumber entries).map MergeNumberAssignment.mergeSeq).Nodup := by
  induction entries generalizing headSeq headNumber with
  | nil => simp
  | cons entry rest ih =>
    cases entry with
    | none => exact ih (headSeq + 1) headNumber
    | some prNumber =>
      rw [assigned_some, List.map_cons, List.nodup_cons]
      refine ⟨?_, ih (headSeq + 1) (headNumber + 1)⟩
      intro repeated
      obtain ⟨a, member, same⟩ := List.mem_map.mp repeated
      obtain ⟨i, n, pr, -, -, rfl⟩ := mem_assigned.mp member
      dsimp only at same
      omega

end PrSearch.MergeNumber
