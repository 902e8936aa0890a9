import PrSearch.MergeNumber.Evidence
import PrSearch.MergeNumber.Plan

/-! # One numbering round: `reconcileMergeNumbers`

A round reads the checkpoint, the rows after it and their evidence on the pool, asks the outside for
what is missing, and then takes the lock of the space. Under the lock it checks that neither the
epoch nor the checkpoint nor the evidence has moved, stores the evidence, plans the numbers and
writes them with the new checkpoint in one transaction.
-/
namespace PrSearch.MergeNumber

open Sequence Program

/-! ### Decisions by sequence number -/

/-- A map from sequence numbers to decisions, in the order of insertion. -/
abbrev Decisions := List (Int × EvidenceDecision)

namespace Decisions

def get (mergeSeq : Int) : Decisions → Option EvidenceDecision
  | [] => none
  | (seq, decision) :: rest => if seq = mergeSeq then some decision else get mergeSeq rest

/-- A key that is already there keeps its place. -/
def set (mergeSeq : Int) (decision : EvidenceDecision) : Decisions → Decisions
  | [] => [(mergeSeq, decision)]
  | (seq, held) :: rest =>
      if seq = mergeSeq then (mergeSeq, decision) :: rest
      else (seq, held) :: set mergeSeq decision rest

def keys (decisions : Decisions) : List Int := decisions.map Prod.fst

end Decisions

/-- The row of `listEvidence` or `lockEvidence` for a sequence number. -/
def evidenceOf (mergeSeq : Int) (evidence : List EvidenceRow) : Option EvidenceRow :=
  evidence.find? fun row => row.mergeSeq = mergeSeq

/-! ### Outcomes -/

structure BlockedAt where
  seq : Int
  reason : BlockReason
  retryAt : Option Instant := none
  deriving DecidableEq, Repr

inductive ReconcileOutcome
  | done (epoch : Int) (assigned attested : Nat) (blocked : Option BlockedAt)
      (continueImmediately : Bool)
  | skipped (reason : String)
  | locked
  | retry (reason : String)
  deriving DecidableEq, Repr

/-! ### Outside the transaction -/

/-- What the decisions of a round have come to, and how many of them an attestation made. -/
structure Gathered where
  decisions : Decisions
  attested : Nat
  gracePending : Option (Int × Instant)
  deriving DecidableEq, Repr

/-- Record the decision of a row, after the attestation has had its say. -/
def Gathered.record (gathered : Gathered) (row : MergeSequenceRow) (resolved : EvidenceDecision)
    (verdict : AttestationVerdict) : EvidenceDecision × Gathered :=
  match verdict with
  | .notApplicable =>
      (resolved, { gathered with decisions := gathered.decisions.set row.mergeSeq resolved })
  | .gracePending readyAt =>
      (resolved, { gathered with
        decisions := gathered.decisions.set row.mergeSeq resolved
        gracePending := some (row.mergeSeq, readyAt) })
  | .attested decision =>
      (decision, { gathered with
        decisions := gathered.decisions.set row.mergeSeq decision
        attested := gathered.attested + 1 })

/-- The evidence of the rows, up to the first one that stays undecided. -/
def gatherDecisions (seqEpoch : Int) (existing : List EvidenceRow)
    (attestation : Option Attestation) (force : Bool) :
    List MergeSequenceRow → Gathered → Program Gathered
  | [], gathered => pure gathered
  | row :: rest, gathered => do
      let resolved ← resolveEvidence seqEpoch row (evidenceOf row.mergeSeq existing) force
      let verdict ← judge attestation resolved row
      let (decision, next) := gathered.record row resolved verdict
      if decision.isUnresolved then pure next
      else gatherDecisions seqEpoch existing attestation force rest next

/-! ### Inside the transaction -/

/-- What a round brings to the lock. -/
structure Round where
  seqEpoch : Int
  checkpoint : Checkpoint
  rows : List MergeSequenceRow
  existing : List EvidenceRow
  gathered : Gathered
  deriving DecidableEq, Repr

/-- `evidence_version`, where no evidence counts as zero. -/
def versionOf (mergeSeq : Int) (evidence : List EvidenceRow) : Int :=
  ((evidenceOf mergeSeq evidence).map EvidenceRow.evidenceVersion).getD 0

def evidenceMoved (existing locked : List EvidenceRow) (seqs : List Int) : Bool :=
  seqs.any fun seq => versionOf seq existing ≠ versionOf seq locked

/-- A confirmation that contradicts the stored one. -/
def contradicts (prior : Option EvidenceRow) : EvidenceDecision → Bool
  | .prConfirmed prNumber .. =>
      prior.any fun evidence => evidence.state = .prConfirmed ∧ evidence.prNumber ≠ some prNumber
  | _ => false

/-- What is left of a contradicting confirmation: the stored evidence stays, the row is a blocker. -/
def conflicting (decision : EvidenceDecision) (row : MergeSequenceRow) (seqEpoch : Int) :
    EvidenceDecision :=
  .unresolved .mappingConflict { (decision.upsert.getD
      ⟨seqEpoch, row.mergeSeq, row.commitSha, .unresolved, none, none, none⟩) with
    state := .unresolved, prNumber := none, reason := some .mappingConflict, mergedAt := none }

/-- `upsertEvidence`, unless there is nothing to store. -/
def storeUpsert : Option EvidenceUpsert → Program Unit
  | some upsert => discard (execute .tx (.upsertEvidence upsert))
  | none => pure ()

/-- Store the evidence of the rows up to the first undecided one. -/
def storeEvidence (seqEpoch : Int) (existing : List EvidenceRow) :
    List MergeSequenceRow → Decisions → Program Decisions
  | [], decisions => pure decisions
  | row :: rest, decisions =>
      match decisions.get row.mergeSeq with
      | none => pure decisions
      | some decision =>
          if contradicts (evidenceOf row.mergeSeq existing) decision then
            pure (decisions.set row.mergeSeq (conflicting decision row seqEpoch))
          else do
            storeUpsert decision.upsert
            if decision.isUnresolved then pure decisions
            else storeEvidence seqEpoch existing rest decisions

def toPlanRow (row : MergeSequenceRow) (decision : Option EvidenceDecision) : PlanRow :=
  match decision with
  | none => ⟨row.mergeSeq, row.commitSha, .unresolved, none, some .prEvidencePending,
      row.mergeNumber, row.pullRequestNumber, none⟩
  | some (.prConfirmed prNumber mergedAt _) => ⟨row.mergeSeq, row.commitSha, .prConfirmed,
      some prNumber, none, row.mergeNumber, row.pullRequestNumber, some mergedAt⟩
  | some (.directConfirmed _) => ⟨row.mergeSeq, row.commitSha, .directConfirmed, none, none,
      row.mergeNumber, row.pullRequestNumber, none⟩
  | some (.unresolved reason _) => ⟨row.mergeSeq, row.commitSha, .unresolved, none, some reason,
      row.mergeNumber, row.pullRequestNumber, none⟩

/-- `RECONCILE_BUDGET_MS` -/
def reconcileBudgetMs : Int := 1000

/-- `assignMergeNumbers`, which makes no statement of an empty list. -/
def writeAssignments (seqEpoch : Int) (assignments : List MergeNumberAssignment) : Program Int :=
  if assignments = [] then pure 0 else execute .tx (.assignMergeNumbers seqEpoch assignments)

def requestAll : List Intent → Program Unit
  | [] => pure ()
  | intent :: rest => do
      discard (execute .tx (.request intent))
      requestAll rest

/-- The works that the numbers ask for: two for each, and one announcement of them all. -/
def assignmentRequests (seqEpoch : Int) (assignments : List PlanAssignment) : List Intent :=
  (assignments.flatMap fun assignment =>
    [.work .materialize seqEpoch [toString assignment.prNumber],
      .work .tag seqEpoch [toString assignment.prNumber]]) ++
  match assignments.head?, assignments.getLast? with
  | some first, some last =>
      [.work .announce seqEpoch [toString first.mergeNumber, toString last.mergeNumber]]
  | _, _ => []

/-- The outcome of a plan that has been committed. -/
def Round.outcome (round : Round) (plan : PlanResult) : ReconcileOutcome :=
  .done round.seqEpoch plan.assignments.length round.gathered.attested
    (plan.blocked.map fun blocked => ⟨blocked.seq, blocked.reason,
      (round.gathered.gracePending.filter fun pending => pending.1 = blocked.seq).map Prod.snd⟩)
    (plan.budgetExhausted ∧ plan.blocked = none)

/-- A transaction either gives up with an outcome, or ends with a plan that it has committed. -/
def giveUp (outcome : ReconcileOutcome) : Program (ReconcileOutcome ⊕ PlanResult) := do
  .perform .rollback
  pure (.inl outcome)

/-- The table is not what the planner took it for: only the blocker is written, on the pool. -/
def blockMismatch (round : Round) (plan : PlanResult) :
    Program (ReconcileOutcome ⊕ PlanResult) := do
  .perform .rollback
  let firstSeq := (plan.assignments.head?.map PlanAssignment.mergeSeq).getD
    (round.checkpoint.headSeq + 1)
  let _ ← execute .pool (.advanceMergeNumberCheckpoint round.seqEpoch
    ⟨round.checkpoint.headSeq, round.checkpoint.headNumber, some ⟨firstSeq, .canonicalMismatch⟩⟩)
  pure (.inl (.done round.seqEpoch 0 0 (some ⟨firstSeq, .canonicalMismatch, none⟩) false))

/-- The numbers, the checkpoint and the requests of a plan. -/
def writePlan (round : Round) (plan : PlanResult) : Program (ReconcileOutcome ⊕ PlanResult) := do
  let written ← writeAssignments round.seqEpoch (plan.assignments.map PlanAssignment.written)
  if written ≠ plan.assignments.length then blockMismatch round plan
  else do
    let advanced ← execute .tx (.advanceMergeNumberCheckpoint round.seqEpoch
      ⟨plan.nextHeadSeq, plan.nextHeadNumber, plan.blocked⟩)
    if ¬ 0 < advanced then giveUp (.retry "epoch_moved")
    else do
      requestAll (assignmentRequests round.seqEpoch plan.assignments)
      .perform .commit
      pure (.inr plan)

def planRound (round : Round) (decisions : Decisions) :
    Program (ReconcileOutcome ⊕ PlanResult) := do
  let planned := round.rows.map fun row => toPlanRow row (decisions.get row.mergeSeq)
  let alreadyNumbered ← query .tx
    (Store.listNumberedPullRequests round.seqEpoch (planned.filterMap PlanRow.prNumber))
  let previousMergedAt ← query .tx
    (Store.findLastConfirmedMergedAt round.seqEpoch round.checkpoint.headSeq)
  let now ← .perform .readClock
  match planMergeNumbers ⟨round.checkpoint, planned, previousMergedAt,
    fun prNumber => prNumber ∈ alreadyNumbered, some reconcileBudgetMs, now⟩ with
  | .error fault => .raise fault
  | .ok plan => writePlan round plan

def reconcileLocked (round : Round) : Program (ReconcileOutcome ⊕ PlanResult) := do
  match ← query .tx Store.findSequenceSpace with
  | none => giveUp (.retry "checkpoint_moved")
  | some current =>
      if current.seqEpoch ≠ round.seqEpoch ∨
          current.mnumberHeadSeq ≠ round.checkpoint.headSeq then
        giveUp (.retry "checkpoint_moved")
      else do
        let seqs := round.gathered.decisions.keys
        let locked ← query .tx (Store.listEvidence round.seqEpoch seqs)
        if evidenceMoved round.existing locked seqs then giveUp (.retry "evidence_moved")
        else do
          let decisions ←
            storeEvidence round.seqEpoch round.existing round.rows round.gathered.decisions
          planRound round decisions

def reconcileBody (round : Round) : Program (ReconcileOutcome ⊕ PlanResult) := do
  .perform .begin
  let locked ← .perform .trySequenceSpaceLock
  if locked then reconcileLocked round else giveUp .locked

/-! ### The round -/

/-- `options`, the size of a batch, and the epoch whose index this process has cleared last. -/
structure RoundOptions where
  baseBranch : String
  batchSize : Nat
  force : Bool
  clearedEpoch : Int
  deriving DecidableEq, Repr

/-- The transaction of a round, and after its commit the samples, whose failure is swallowed. -/
def commitRound (round : Round) : Program ReconcileOutcome := do
  .perform .connect
  let ended ← (reconcileBody round).tryCatch fun fault => do
    quietly .rollback
    .raise fault
  match ended with
  | .inl outcome => pure outcome
  | .inr plan => do
      quietly (.external .recordAssignmentSamples)
      pure (round.outcome plan)

/-- The round from the rows on; with no rows there is nothing to check. -/
def reconcileRows (options : RoundOptions) (space : SequenceSpace) (rows : List MergeSequenceRow) :
    Program ReconcileOutcome :=
  if rows = [] then
    pure (.done space.seqEpoch 0 0
      (space.mnumberBlocked.map fun blocked => ⟨blocked.seq, blocked.reason, none⟩) false)
  else do
    let existing ← query .pool
      (Store.listEvidence space.seqEpoch (rows.map MergeSequenceRow.mergeSeq))
    let attestation ← .perform (.findActiveAttestation space.seqEpoch)
    let gathered ← gatherDecisions space.seqEpoch existing attestation options.force rows ⟨[], 0, none⟩
    commitRound ⟨space.seqEpoch, ⟨space.mnumberHeadSeq, space.mnumberHead⟩, rows, existing, gathered⟩

def reconcileSpace (options : RoundOptions) (space : SequenceSpace) : Program ReconcileOutcome :=
  if space.state = .reassigning then pure (.retry "space_reassigning")
  else do
    when (options.clearedEpoch < space.seqEpoch)
      (quietly (.external .clearMergeNumbersBelowEpoch))
    let rows ← query .pool
      (Store.listCandidatesAfter space.seqEpoch space.mnumberHeadSeq options.batchSize)
    reconcileRows options space rows

def reconcileMergeNumbers (options : RoundOptions) : Program ReconcileOutcome := do
  match ← .perform .findRepositoryById with
  | none => pure (.skipped "repository_unregistered")
  | some repository =>
      if repository.status ≠ "active" then pure (.skipped "repository_archived")
      else if options.baseBranch ∉ repository.sequenceBranches then
        pure (.skipped "not_sequence_branch")
      else do
        match ← query .pool Store.findSequenceSpace with
        | none => pure (.skipped "sequence_space_missing")
        | some space => reconcileSpace options space

end PrSearch.MergeNumber
