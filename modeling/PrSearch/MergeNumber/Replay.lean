import PrSearch.MergeNumber.Batches
import PrSearch.MergeNumber.Behaviour

/-! # Planning rows that carry their numbers already

A round that is run again over rows beyond the checkpoint finds some of them numbered. The planner
lets a row pass that carries the pull request and the number it would get. But the pull requests
that count as numbered are read from the whole epoch, and this row is one of those: it is taken for
a second commit of its own pull request.
-/
namespace PrSearch.MergeNumber

open Sequence

/-- What a round plans from: the tables, its checkpoint, the limit of its batch and its decisions. -/
structure Replan where
  store : Store
  seqEpoch : Int
  checkpoint : Checkpoint
  limit : Nat
  decisions : Decisions
  previousMergedAt : Option Instant
  budgetMs : Option Int
  now : Nat → Instant

namespace Replan

variable (replan : Replan)

def candidates : List MergeSequenceRow :=
  replan.store.listCandidatesAfter replan.seqEpoch replan.checkpoint.headSeq replan.limit

def planned : List PlanRow :=
  replan.candidates.map fun row => toPlanRow row (replan.decisions.get row.mergeSeq)

/-- The input of `planMergeNumbers`, as `reconcileMergeNumbers` builds it. -/
def input : PlanInput where
  checkpoint := replan.checkpoint
  rows := replan.planned
  previousAssignedMergedAt := replan.previousMergedAt
  isAlreadyNumbered prNumber := prNumber ∈ replan.store.listNumberedPullRequests replan.seqEpoch
    (replan.planned.filterMap PlanRow.prNumber)
  budgetMs := replan.budgetMs
  now := replan.now

/-- A pull request that a row outside the batch carries a number for. -/
def numberedElsewhere (prNumber : Int) : Bool :=
  replan.store.rows.any fun row => row.seqEpoch = replan.seqEpoch ∧ row.mergeNumber.isSome ∧
    row.pullRequestNumber = some prNumber ∧
    prNumber ∈ replan.planned.filterMap PlanRow.prNumber ∧ row ∉ replan.candidates

/-- The same input as if no row of the batch had its number yet. -/
def unwritten : PlanInput :=
  { replan.input with
    rows := replan.planned.map fun row => { row with existingNumber := none }
    isAlreadyNumbered := replan.numberedElsewhere }

/-- The rows of the batch that carry numbers carry those of `plan`. -/
def Carries (plan : PlanResult) : Prop :=
  planMergeNumbers replan.unwritten = .ok plan ∧
    ∀ row ∈ replan.candidates, ∀ mergeNumber, row.mergeNumber = some mergeNumber →
      ∃ prNumber, row.pullRequestNumber = some prNumber ∧
        ⟨row.mergeSeq, prNumber, mergeNumber⟩ ∈ plan.assignments.map PlanAssignment.written

/-- Planning again gives `plan` again, writing it leaves the numbered rows as they are, and the
checkpoint passes them; a row that carries what it would get is never a mapping conflict. -/
structure Idempotent (plan : PlanResult) : Prop where
  same : planMergeNumbers replan.input = .ok plan
  unchanged : ∀ row ∈ replan.candidates, row.mergeNumber.isSome →
    assignRow replan.seqEpoch (plan.assignments.map PlanAssignment.written) row = row
  passed : ∀ row ∈ replan.candidates, row.mergeNumber.isSome → row.mergeSeq ≤ plan.nextHeadSeq
  conflict : ∀ seq, plan.blocked = some ⟨seq, .mappingConflict⟩ → ∀ row ∈ replan.planned,
    row.mergeSeq = seq → row.idempotent plan.nextHeadNumber = false

end Replan

variable {prNumber : Int} {input : PlanInput}

/-! ### No number for a pull request that counts as numbered -/

/-- A row that takes a number is none of those that may not. -/
theorem not_taken_of_verdict {row : PlanRow} {headNumber : Int} {taken : Int → Bool}
    (verdict : rowVerdict row headNumber taken = .ok (.inr (some prNumber))) :
    taken prNumber = false := by
  unfold rowVerdict at verdict
  split at verdict
  · cases verdict
  · split at verdict
    · cases verdict
    · cases verdict
    · split at verdict
      · cases verdict
      · split at verdict
        · cases verdict
        · split at verdict
          · cases verdict
          next free =>
            split at verdict
            · cases verdict
            · cases verdict
              exact Bool.eq_false_iff.mpr free

theorem planRows_not_numbered {deadline : Option Instant} {reading : Nat} {rows : List PlanRow}
    {walk : PlanWalk} {plan : PlanResult}
    (before : ∀ a ∈ walk.assignments, input.isAlreadyNumbered a.prNumber = false)
    (planned : planRows input deadline reading rows walk = .ok plan) :
    ∀ a ∈ plan.assignments, input.isAlreadyNumbered a.prNumber = false := by
  induction rows generalizing reading walk with
  | nil =>
    cases planned
    exact before
  | cons row rest ih =>
    simp only [planRows] at planned
    split at planned
    · cases planned
    · split at planned
      · cases planned
        exact before
      · rw [planRow_eq] at planned
        cases verdict : rowVerdict row walk.headNumber (input.taken walk) with
        | error fault =>
          rw [verdict] at planned
          cases planned
        | ok outcome =>
          rw [verdict] at planned
          cases outcome with
          | inl reason =>
            cases planned
            exact before
          | inr entry =>
            refine ih ?_ planned
            intro a member
            cases entry with
            | none => exact before a member
            | some prNumber =>
              rcases List.mem_append.mp member with old | new
              · exact before a old
              · cases List.mem_singleton.mp new
                have free := not_taken_of_verdict verdict
                simp only [PlanInput.taken, decide_eq_false_iff_not, not_or,
                  Bool.not_eq_true] at free
                exact free.2

theorem planMergeNumbers_not_numbered {plan : PlanResult}
    (planned : planMergeNumbers input = .ok plan) :
    ∀ a ∈ plan.assignments, input.isAlreadyNumbered a.prNumber = false := by
  unfold planMergeNumbers at planned
  dsimp only at planned
  split at planned
  · cases planned
  · split at planned
    · cases planned
    · exact planRows_not_numbered (by simp) planned

/-- A number is given to the pull request of one of the rows. -/
theorem planMergeNumbers_candidate {plan : PlanResult} (planned : planMergeNumbers input = .ok plan) :
    ∀ a ∈ plan.assignments, a.prNumber ∈ input.rows.filterMap PlanRow.prNumber := by
  intro a member
  obtain ⟨passed, rest, entries, whole, walked, -, -, written⟩ := planMergeNumbers_passed planned
  have given : a.written ∈
      assigned input.checkpoint.headSeq input.checkpoint.headNumber entries := by
    rw [← written]
    exact List.mem_map_of_mem member
  obtain ⟨row, inside, -, number⟩ := walked.assigned_row given
  rw [whole]
  exact List.mem_filterMap.mpr ⟨row, List.mem_append_left _ inside, number⟩

/-! ### The replay -/

@[simp] theorem toPlanRow_existingNumber (row : MergeSequenceRow)
    (decision : Option EvidenceDecision) :
    (toPlanRow row decision).existingNumber = row.mergeNumber := by
  rcases decision with - | (- | - | -) <;> rfl

namespace Replan

variable {replan : Replan} {plan : PlanResult}

/-- A numbered row of the batch makes its pull request count as numbered. -/
theorem isAlreadyNumbered_of_candidate {row : MergeSequenceRow} (member : row ∈ replan.candidates)
    (numbered : row.mergeNumber.isSome = true) (pr : row.pullRequestNumber = some prNumber)
    (candidate : prNumber ∈ replan.planned.filterMap PlanRow.prNumber) :
    replan.input.isAlreadyNumbered prNumber = true := by
  obtain ⟨stored, epoch, -⟩ := mem_listCandidatesAfter member
  refine decide_eq_true (List.mem_filterMap.mpr ⟨row, ?_, ?_⟩)
  · exact List.mem_filter.mpr ⟨stored, decide_eq_true ⟨epoch, numbered⟩⟩
  · rw [pr]
    simpa using candidate

/-- With no number in the batch, nothing has been written. -/
theorem unwritten_eq (free : ∀ row ∈ replan.candidates, row.mergeNumber = none) :
    replan.unwritten = replan.input := by
  have rows : (replan.planned.map fun row => { row with existingNumber := none }) =
      replan.planned := by
    rw [List.map_congr_left (g := id) ?_, List.map_id]
    intro row member
    obtain ⟨stored, inside, rfl⟩ := List.mem_map.mp member
    have none : (toPlanRow stored (replan.decisions.get stored.mergeSeq)).existingNumber = none := by
      rw [toPlanRow_existingNumber, free stored inside]
    rw [← none]
    rfl
  have already : replan.numberedElsewhere = replan.input.isAlreadyNumbered := by
    funext prNumber
    apply Bool.eq_iff_iff.mpr
    constructor
    · intro elsewhere
      obtain ⟨row, stored, held⟩ := List.any_eq_true.mp elsewhere
      obtain ⟨epoch, numbered, pr, candidate, -⟩ := of_decide_eq_true held
      refine decide_eq_true (List.mem_filterMap.mpr ⟨row, ?_, ?_⟩)
      · exact List.mem_filter.mpr ⟨stored, decide_eq_true ⟨epoch, numbered⟩⟩
      · rw [pr]
        simpa using candidate
    · intro already
      obtain ⟨row, member, pr⟩ := List.mem_filterMap.mp (of_decide_eq_true already)
      obtain ⟨stored, kept⟩ := List.mem_filter.mp member
      obtain ⟨epoch, numbered⟩ := of_decide_eq_true kept
      obtain ⟨found, candidate⟩ := Option.filter_eq_some_iff.mp pr
      refine List.any_eq_true.mpr ⟨row, stored, decide_eq_true ⟨epoch, numbered, found,
        of_decide_eq_true candidate, ?_⟩⟩
      intro inside
      simp [free row inside] at numbered
  unfold unwritten
  rw [rows, already]
  rfl

theorem idempotent_iff (carries : replan.Carries plan) :
    replan.Idempotent plan ↔ ∀ row ∈ replan.candidates, row.mergeNumber = none := by
  constructor
  · intro idempotent row member
    by_contra numbered
    obtain ⟨mergeNumber, number⟩ := Option.ne_none_iff_exists'.mp numbered
    obtain ⟨prNumber, pr, given⟩ := carries.2 row member mergeNumber number
    obtain ⟨a, assigned, written⟩ := List.mem_map.mp given
    have same : a.prNumber = prNumber := congrArg MergeNumberAssignment.prNumber written
    have candidate := planMergeNumbers_candidate idempotent.same a assigned
    have free := planMergeNumbers_not_numbered idempotent.same a assigned
    rw [same] at candidate free
    have taken := isAlreadyNumbered_of_candidate member (by simp [number]) pr candidate
    exact absurd (taken.symm.trans free) (by decide)
  · intro free
    have none_some : ∀ row ∈ replan.candidates, ¬ row.mergeNumber.isSome := by
      intro row member
      simp [free row member]
    refine ⟨unwritten_eq free ▸ carries.1, fun row member numbered => absurd numbered
      (none_some row member), fun row member numbered => absurd numbered (none_some row member), ?_⟩
    intro seq _ row member _
    obtain ⟨stored, inside, rfl⟩ := List.mem_map.mp member
    simp [PlanRow.idempotent, free stored inside]

/-- Two pull requests in one epoch; the first has its number, and the checkpoint is before both. -/
def halfWritten : Replan where
  store :=
    { space := some ⟨1, some "b", 2, .ok, none, 0, 0, none⟩
      rows := [⟨1, 1, "a", some 21, 0, some 1⟩, ⟨1, 2, "b", some 25, 0, none⟩]
      evidence := []
      intents := []
      lawful := by decide }
  seqEpoch := 1
  checkpoint := ⟨0, 0⟩
  limit := 200
  decisions :=
    [(1, .prConfirmed 21 10 ⟨1, 1, "a", .prConfirmed, some 21, none, some 10⟩),
      (2, .prConfirmed 25 20 ⟨1, 2, "b", .prConfirmed, some 25, none, some 20⟩)]
  previousMergedAt := none
  budgetMs := none
  now _ := 0

/-- The numbers that the two pull requests get. -/
def bothNumbers : PlanResult where
  assignments := [⟨1, 21, 1, some 10⟩, ⟨2, 25, 2, some 20⟩]
  nextHeadSeq := 2
  nextHeadNumber := 2
  blocked := none
  orderMismatches := 0
  orderUnknown := 0
  budgetExhausted := false

theorem idempotent_iff_halfWritten :
    halfWritten.Carries bothNumbers ∧ ¬ halfWritten.Idempotent bothNumbers := by
  have carries : halfWritten.Carries bothNumbers := by
    refine ⟨by decide, ?_⟩
    intro row member mergeNumber number
    have batch : halfWritten.candidates =
        [⟨1, 1, "a", some 21, 0, some 1⟩, ⟨1, 2, "b", some 25, 0, none⟩] := by decide
    rw [batch] at member
    rcases List.mem_pair.mp member with rfl | rfl
    · cases number
      exact ⟨21, rfl, List.mem_cons_self⟩
    · cases number
  refine ⟨carries, fun idempotent => ?_⟩
  have free := (idempotent_iff carries).mp idempotent
    ⟨1, 1, "a", some 21, 0, some 1⟩ (by decide)
  cases free

/-- The second run stops at the row whose number is there already. -/
theorem halfWritten_conflicts :
    planMergeNumbers halfWritten.unwritten = .ok bothNumbers ∧
      planMergeNumbers halfWritten.input =
        .ok ⟨[], 0, 0, some ⟨1, .mappingConflict⟩, 0, 0, false⟩ := by
  decide +kernel

end Replan

end PrSearch.MergeNumber
