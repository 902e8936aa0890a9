import PrSearch.Sequence.Assign

/-! # Repairing a branch on request: `repairSequence`

The stored numbers are compared with the branch as it is now; from the first number that does not
match, the epoch is rebuilt.
-/
namespace PrSearch.Sequence

open Program

structure SequenceMismatch where
  mergeSeq : Int
  storedCommitSha : Sha
  actualCommitSha : Option Sha
  deriving DecidableEq, Repr

/-- `xs[i] ?? null` -/
def elementAt {α : Type} (xs : List α) (i : Int) : Option α :=
  if 0 ≤ i then xs[i.toNat]? else none

/-- The first entry that is not the commit at its place in `actual`. -/
def firstMismatchIn (actual : List Sha) : List StoredSequenceEntry → Option SequenceMismatch
  | [] => none
  | entry :: rest =>
      match elementAt actual (entry.mergeSeq - 1) with
      | none => some ⟨entry.mergeSeq, entry.commitSha, none⟩
      | some sha =>
          if toLowerCase sha ≠ toLowerCase entry.commitSha then
            some ⟨entry.mergeSeq, entry.commitSha, some sha⟩
          else firstMismatchIn actual rest

def firstSequenceMismatch (stored : List StoredSequenceEntry) (actualOldestFirst : List Sha) :
    Option SequenceMismatch :=
  firstMismatchIn actualOldestFirst (stored.insertionSort fun a b => a.mergeSeq ≤ b.mergeSeq)

inductive RepairOutcome
  | consistent (checked : Nat) (seqEpoch : Int)
  | repaired (oldEpoch newEpoch divergedAtSeq toSeq : Int) (headSha : Sha) (affectedCount : Int)
  | noBranch
  | locked
  | skipped (reason : String)
  | stale (reason : String)
  deriving DecidableEq, Repr

def markRepairStale (reason : String) : Program RepairOutcome := do
  let _ ← markStale reason
  pure (.stale reason)

/-- What the analysis outside the transaction has found. -/
structure RepairPlan where
  head : Sha
  space : SequenceSpace
  actual : List Sha
  divergedAtSeq : Int
  deriving DecidableEq, Repr

/-- Take the mark back if it was set, to the state that the analysis had read. -/
def restoreRepairState (plan : RepairPlan) (marked : Bool) (reason : String) :
    Program RepairOutcome := do
  when marked
    (discard (execute .pool (.restoreSequenceState plan.space.state plan.space.lastError)))
  pure (.skipped reason)

/-- The branch must still be where the analysis found it. -/
def repairCommit (plan : RepairPlan) (oldEpoch newEpoch toSeq affectedCount : Int) :
    Program (RepairOutcome ⊕ Reassigned) :=
  readGraph markRepairStale .resolveHead fun liveHead =>
    if liveHead ≠ some plan.head then do
      .perform .rollback
      let outcome ← restoreRepairState plan true "head_moved"
      pure (.inl outcome)
    else do
      commitEpoch plan.head oldEpoch newEpoch toSeq
      pure (.inr ⟨oldEpoch, newEpoch, plan.divergedAtSeq, toSeq, plan.head, affectedCount⟩)

def repairTail (plan : RepairPlan) (oldEpoch newEpoch affectedCount : Int)
    (commits : List FirstParentCommit) : Program (RepairOutcome ⊕ Reassigned) := do
  let numbered := numberCommits (plan.divergedAtSeq - 1) commits
  upsertNumbered newEpoch numbered
  repairCommit plan oldEpoch newEpoch (plan.divergedAtSeq - 1 + numbered.length) affectedCount

/-- The last commit before the mismatch; the whole chain is walked when there is none. -/
def RepairPlan.walkFrom (plan : RepairPlan) : Option Sha :=
  if plan.divergedAtSeq = 1 then none else elementAt plan.actual (plan.divergedAtSeq - 2)

def repairRebuild (plan : RepairPlan) (oldEpoch : Int) : Program (RepairOutcome ⊕ Reassigned) := do
  let _ ← execute .pool .markReassigning
  let affectedCount ← query .tx (Store.countAbove oldEpoch (plan.divergedAtSeq - 1))
  let newEpoch ← execute .tx .bumpEpoch
  when (1 < plan.divergedAtSeq)
    (discard (execute .tx (.copySequencesUpTo oldEpoch newEpoch (plan.divergedAtSeq - 1))))
  readGraph markRepairStale (.firstParentCommits plan.walkFrom plan.head)
    (repairTail plan oldEpoch newEpoch affectedCount)

def repairLocked (plan : RepairPlan) : Program (RepairOutcome ⊕ Reassigned) := do
  let giveUp (reason : String) : Program (RepairOutcome ⊕ Reassigned) := do
    .perform .rollback
    let outcome ← restoreRepairState plan false reason
    pure (.inl outcome)
  match ← query .tx Store.findSequenceSpace with
  | none => giveUp "sequence_space_missing"
  | some current =>
      if current.seqEpoch ≠ plan.space.seqEpoch then giveUp "epoch_moved"
      else if current.headSha ≠ plan.space.headSha then giveUp "head_moved"
      else repairRebuild plan current.seqEpoch

def repairBody (plan : RepairPlan) : Program (RepairOutcome ⊕ Reassigned) := do
  .perform .begin
  let locked ← .perform .trySequenceSpaceLock
  if locked then repairLocked plan
  else do
    .perform .rollback
    pure (.inl .locked)

def announceRepaired (done : Reassigned) : Program RepairOutcome := do
  quietly (.external (.projectSequenceRange done.newEpoch (done.divergedAtSeq - 1) done.toSeq))
  quietly (.external (.publish
    (.sequenceReassigned done.oldEpoch done.newEpoch done.divergedAtSeq done.affectedCount)))
  quietly (.external .requestReleaseRefresh)
  pure (.repaired done.oldEpoch done.newEpoch done.divergedAtSeq done.toSeq done.headSha
    done.affectedCount)

def repairPlanned (plan : RepairPlan) : Program RepairOutcome := do
  .perform .connect
  let ended ← (repairBody plan).tryCatch fun fault => do
    quietly .rollback
    let outcome ← markRepairStale (graphReason fault)
    pure (.inl outcome)
  match ended with
  | .inl outcome => pure outcome
  | .inr done => announceRepaired done

/-- Compare what is stored with the branch, and rebuild from the first mismatch. -/
def repairSpace (head : Sha) (space : SequenceSpace) : Program RepairOutcome := do
  let stored ← query .pool (Store.listStoredSequence space.seqEpoch 1)
  match ← attempt (.firstParentRevList none head) with
  | .error fault => markRepairStale (graphReason fault)
  | .ok actual =>
      match firstSequenceMismatch stored actual with
      | none => do
          let _ ← execute .pool (.request (.work .project space.seqEpoch ["full"]))
          pure (.consistent stored.length space.seqEpoch)
      | some mismatch => repairPlanned ⟨head, space, actual, mismatch.mergeSeq⟩

def repairSequence : Program RepairOutcome := do
  match ← attempt .resolveHead with
  | .error fault => markRepairStale (graphReason fault)
  | .ok none => pure .noBranch
  | .ok (some head) => do
      match ← query .pool Store.findSequenceSpace with
      | none => pure (.skipped "sequence_space_missing")
      | some space => repairSpace head space

end PrSearch.Sequence
