import PrSearch.Sequence.System

/-! # Numbering a branch: `assignSequence` and `reassignSequence`

The two programs of `sequence.ts`. Work before `COMMIT` ends either in an outcome that is returned
at once or in what has been committed; projections, events and audit records follow the commit.
-/
namespace PrSearch.Sequence

inductive AssignOutcome
  | assigned (fromSeq toSeq : Int) (headSha : Sha)
  | skipped (reason : String)
  | noBranch
  | locked
  | stale (reason : String)
  | reassigned (oldEpoch newEpoch divergedAtSeq toSeq : Int) (headSha : Sha) (affectedCount : Int)
  | rewritten (storedHead newHead : Sha)
  deriving DecidableEq, Repr

structure NumberedCommit where
  mergeSeq : Int
  sha : Sha
  committedAt : Instant
  deriving DecidableEq, Repr

def isSequenceBranch (sequenceBranches : List String) (branch : String) : Bool :=
  sequenceBranches.contains branch

/-- The first commit gets the number after `headSeq`. -/
def numberCommits (headSeq : Int) (commits : List FirstParentCommit) : List NumberedCommit :=
  commits.mapIdx fun index commit => ⟨headSeq + index + 1, commit.sha, commit.committedAt⟩

def graphReason : Fault → String
  | .graph kind message => slice 200 ("graph_" ++ kind ++ ":" ++ message)
  | .error message => slice 200 message

open Program

/-- The look-up may fail without stopping the numbering. -/
def findPullRequestNumber (sha : Sha) : Program (Option Int) := do
  match ← attempt (.findPullRequestByMergeCommit sha) with
  | .ok found => pure found
  | .error _ => pure none

def refreshSequenceSpaceStates : Program Unit := quietly (.external .refreshSequenceSpaceStates)

def markStale (reason : String) : Program AssignOutcome := do
  let _ ← execute .pool (.markStale reason)
  refreshSequenceSpaceStates
  pure (.stale reason)

/-- `requestMergeNumberReconcile` and the other `requestWork` calls of a transaction. -/
def request (intent : Intent) : Program Unit := discard (execute .tx (.request intent))

/-- Write the numbered commits, each with the pull request found for it now. -/
def upsertNumbered (seqEpoch : Int) : List NumberedCommit → Program Unit
  | [] => pure ()
  | entry :: rest => do
      let prNumber ← findPullRequestNumber entry.sha
      let _ ← execute .tx
        (.upsertMergeSequence ⟨seqEpoch, entry.mergeSeq, entry.sha, prNumber, entry.committedAt⟩)
      upsertNumbered seqEpoch rest

/-- Read the graph inside the transaction; when that fails, roll back and end with `mark`. -/
def readGraph {O β γ : Type} (mark : String → Program O) (op : Op β)
    (next : β → Program (O ⊕ γ)) : Program (O ⊕ γ) := do
  match ← attempt op with
  | .ok answer => next answer
  | .error fault => do
      .perform .rollback
      let outcome ← mark (graphReason fault)
      pure (.inl outcome)

/-! ### Reassignment -/

structure Reassigned where
  oldEpoch : Int
  newEpoch : Int
  divergedAtSeq : Int
  toSeq : Int
  headSha : Sha
  affectedCount : Int
  deriving DecidableEq, Repr

/-- The merge base counts only if the old epoch numbered it. -/
def locateBase (oldEpoch : Int) (baseSha : Option Sha) : Program (Option Sha × Int) :=
  match baseSha with
  | none => pure (none, 0)
  | some base => do
      match ← query .tx (Store.findSeqByCommit oldEpoch base) with
      | none => pure (none, 0)
      | some found => pure (some base, found)

/-- Move the head, leave the follow-up work of a new epoch in the same transaction, and commit. -/
def commitEpoch (newHead : Sha) (oldEpoch newEpoch toSeq : Int) : Program Unit := do
  let _ ← execute .tx (.advanceHead newHead toSeq)
  request (.work .reconcile newEpoch [])
  request (.work .project newEpoch ["full"])
  let changed ← query .tx (Store.listChangedCommitsBetweenEpochs oldEpoch newEpoch)
  request (.relink changed)
  .perform .commit

/-- Number the tail of the new epoch and commit. -/
def reassignTail (newHead : Sha) (oldEpoch newEpoch baseSeq affectedCount : Int)
    (commits : List FirstParentCommit) : Program (AssignOutcome ⊕ Reassigned) := do
  let numbered := numberCommits baseSeq commits
  upsertNumbered newEpoch numbered
  let toSeq := baseSeq + numbered.length
  commitEpoch newHead oldEpoch newEpoch toSeq
  pure (.inr ⟨oldEpoch, newEpoch, baseSeq + 1, toSeq, newHead, affectedCount⟩)

/-- Raise the epoch, keep the numbers up to the base and walk on from there. -/
def reassignFrom (newHead : Sha) (oldEpoch : Int) (baseSha : Option Sha) (baseSeq : Int) :
    Program (AssignOutcome ⊕ Reassigned) := do
  let affectedCount ← query .tx (Store.countAbove oldEpoch baseSeq)
  let newEpoch ← execute .tx .bumpEpoch
  when (0 < baseSeq) (discard (execute .tx (.copySequencesUpTo oldEpoch newEpoch baseSeq)))
  readGraph markStale (.firstParentCommits baseSha newHead)
    (reassignTail newHead oldEpoch newEpoch baseSeq affectedCount)

def reassignLocked (storedHead newHead : Sha) : Program (AssignOutcome ⊕ Reassigned) := do
  match ← query .tx Store.findSequenceSpace with
  | none => do
      .perform .rollback
      let outcome ← markStale "sequence_space_missing"
      pure (.inl outcome)
  | some space =>
      if space.headSha ≠ some storedHead then do
        .perform .rollback
        pure (.inl (.skipped "head_moved"))
      else
        readGraph markStale (.mergeBase storedHead newHead) fun mergeBase => do
          let (baseSha, baseSeq) ← locateBase space.seqEpoch mergeBase
          reassignFrom newHead space.seqEpoch baseSha baseSeq

def reassignBody (storedHead newHead : Sha) : Program (AssignOutcome ⊕ Reassigned) := do
  .perform .begin
  let locked ← .perform .trySequenceSpaceLock
  if locked then reassignLocked storedHead newHead
  else do
    .perform .rollback
    pure (.inl (.rewritten storedHead newHead))

/-- After the commit nothing is thrown: the tables are already right. -/
def announceReassigned (done : Reassigned) : Program AssignOutcome := do
  quietly (.external (.projectSequenceRange done.newEpoch (done.divergedAtSeq - 1) done.toSeq))
  quietly (.external (.publish
    (.sequenceReassigned done.oldEpoch done.newEpoch done.divergedAtSeq done.affectedCount)))
  quietly (.external .requestReleaseRefresh)
  quietly (.external .recordAudit)
  refreshSequenceSpaceStates
  pure (.reassigned done.oldEpoch done.newEpoch done.divergedAtSeq done.toSeq done.headSha
    done.affectedCount)

def reassignSequence (storedHead newHead : Sha) : Program AssignOutcome := do
  let _ ← execute .pool .markReassigning
  .perform .connect
  let ended ← (reassignBody storedHead newHead).tryCatch fun fault => do
    quietly .rollback
    let outcome ← markStale (graphReason fault)
    pure (.inl outcome)
  match ended with
  | .inl outcome => pure outcome
  | .inr done => announceReassigned done

/-! ### Assignment -/

structure Assigned where
  fromSeq : Int
  toSeq : Int
  headSha : Sha
  applied : List NumberedCommit
  deriving DecidableEq, Repr

/-- Number the new commits in the current epoch and commit. -/
def assignCommits (space : SequenceSpace) (newHead : Sha) (commits : List FirstParentCommit) :
    Program (AssignOutcome ⊕ Assigned) := do
  let numbered := numberCommits space.headSeq commits
  upsertNumbered space.seqEpoch numbered
  let toSeq := space.headSeq + numbered.length
  let _ ← execute .tx (.advanceHead newHead toSeq)
  request (.work .reconcile space.seqEpoch [])
  when (0 < numbered.length) do
    request (.work .project space.seqEpoch [])
    request (.relink (numbered.map NumberedCommit.sha))
  .perform .commit
  pure (.inr ⟨space.headSeq, toSeq, newHead, numbered⟩)

/-- The stored head must be an ancestor of the new one; otherwise the history was rewritten. -/
def assignOnto (space : SequenceSpace) (newHead : Sha) : Program (AssignOutcome ⊕ Assigned) :=
  let append :=
    readGraph markStale (.firstParentCommits space.headSha newHead) (assignCommits space newHead)
  match space.headSha with
  | none => append
  | some stored =>
      if stored = newHead then append
      else
        readGraph markStale (.isAncestor stored newHead) fun ancestor =>
          if ancestor then append
          else do
            .perform .rollback
            let outcome ← reassignSequence stored newHead
            pure (.inl outcome)

def assignLocked : Program (AssignOutcome ⊕ Assigned) := do
  let _ ← execute .tx .ensureSequenceSpace
  match ← query .tx Store.findSequenceSpace with
  | none => do
      .perform .rollback
      pure (.inl (.stale "sequence_space_missing"))
  | some space =>
      readGraph markStale .resolveHead fun head =>
        match head with
        | none => do
            .perform .rollback
            pure (.inl .noBranch)
        | some newHead => assignOnto space newHead

def assignBody : Program (AssignOutcome ⊕ Assigned) := do
  .perform .begin
  let locked ← .perform .trySequenceSpaceLock
  if locked then assignLocked
  else do
    .perform .rollback
    pure (.inl .locked)

/-- The event is the only thing after the commit whose failure is thrown. -/
def announceAssigned (done : Assigned) : Program AssignOutcome := do
  let space ← query .pool Store.findSequenceSpace
  let epoch := (space.map SequenceSpace.seqEpoch).getD 1
  when (0 < done.applied.length)
    (quietly (.external (.projectSequenceRange epoch done.fromSeq done.toSeq)))
  .perform (.external (.publish (.sequenceAssigned epoch done.fromSeq done.toSeq done.headSha)))
  refreshSequenceSpaceStates
  pure (.assigned done.fromSeq done.toSeq done.headSha)

def assignSequence (baseBranch : String) : Program AssignOutcome := do
  match ← .perform .findRepositoryById with
  | none => pure (.skipped "repository_unregistered")
  | some repository =>
      if repository.status ≠ "active" then pure (.skipped "repository_archived")
      else if ¬ isSequenceBranch repository.sequenceBranches baseBranch then
        pure (.skipped "not_sequence_branch")
      else do
        .perform .connect
        let ended ← assignBody.tryCatch fun fault => do
          quietly .rollback
          .raise fault
        match ended with
        | .inl outcome => pure outcome
        | .inr done => announceAssigned done

end PrSearch.Sequence
