import PrSearch.Sequence.System

/-! # Evidence for one row: `resolveEvidence` and `applyAttestation`

A row is decided by what is known about its commit: a pull request that it merged, or a direct push.
Evidence that is confirmed is not asked for again, evidence that is pending is asked for at most
once a minute, and an operator's attestation turns some of the undecided rows into direct pushes.
-/
namespace PrSearch.MergeNumber

open Sequence Program

inductive EvidenceDecision
  | prConfirmed (prNumber : Int) (mergedAt : Instant) (upsert : EvidenceUpsert)
  | directConfirmed (upsert : Option EvidenceUpsert)
  | unresolved (reason : BlockReason) (upsert : EvidenceUpsert)
  deriving DecidableEq, Repr

namespace EvidenceDecision

/-- What is to be stored of a decision. -/
def upsert : EvidenceDecision → Option EvidenceUpsert
  | prConfirmed _ _ upsert => some upsert
  | directConfirmed upsert => upsert
  | unresolved _ upsert => some upsert

def isUnresolved : EvidenceDecision → Bool
  | unresolved .. => true
  | _ => false

end EvidenceDecision

def unresolved (seqEpoch : Int) (row : MergeSequenceRow) (reason : BlockReason) :
    EvidenceDecision :=
  .unresolved reason
    ⟨seqEpoch, row.mergeSeq, row.commitSha, .unresolved, none, some reason, none⟩

def confirmed (seqEpoch : Int) (row : MergeSequenceRow) (prNumber : Int) (mergedAt : Instant) :
    EvidenceDecision :=
  .prConfirmed prNumber mergedAt
    ⟨seqEpoch, row.mergeSeq, row.commitSha, .prConfirmed, some prNumber, none, some mergedAt⟩

/-- The decision that stored evidence settles. -/
def settled (seqEpoch : Int) (row : MergeSequenceRow) (existing : EvidenceRow) :
    Option EvidenceDecision :=
  match existing.state, existing.prNumber, existing.mergedAt with
  | .prConfirmed, some prNumber, some mergedAt => some (confirmed seqEpoch row prNumber mergedAt)
  | .directConfirmed, _, _ => some (.directConfirmed none)
  | _, _, _ => none

/-- Whether the row was looked up within `EVIDENCE_RECHECK_MS`, where that counts. The time of the
last look-up is not in this model, so the comparison is left to the environment. -/
def stillPending (force : Bool) : Option EvidenceRow → Program Bool
  | some existing =>
      if existing.state = .unresolved ∧ ¬ force ∧ existing.reason ≠ some .partialLookup then
        .perform (.recheckPending existing)
      else pure false
  | none => pure false

/-- The look-up of the commit's pull request on the outside. -/
def scan (seqEpoch : Int) (row : MergeSequenceRow) : Program EvidenceDecision := do
  match ← .perform (.scanEvidence row) with
  | .confirmed prNumber mergedAt => pure (confirmed seqEpoch row prNumber mergedAt)
  | .unresolved reason => pure (unresolved seqEpoch row reason)

def resolveEvidence (seqEpoch : Int) (row : MergeSequenceRow) (existing : Option EvidenceRow)
    (force : Bool) : Program EvidenceDecision :=
  match existing.bind (settled seqEpoch row) with
  | some decision => pure decision
  | none => do
      if ← stillPending force existing then
        pure (unresolved seqEpoch row
          ((existing.bind EvidenceRow.reason).getD .prEvidencePending))
      else scan seqEpoch row

/-! ### Attestations -/

/-- `ATTESTABLE_REASONS` -/
def isAttestableReason (reason : BlockReason) : Bool :=
  reason ∈ [.negativeEvidenceUnavailable, .unsupportedMergeProfile]

inductive AttestationVerdict
  | notApplicable
  | gracePending (readyAt : Instant)
  | attested (decision : EvidenceDecision)
  deriving DecidableEq, Repr

def applyAttestation (attestation : Attestation) (decision : EvidenceDecision)
    (row : MergeSequenceRow) (now : Instant) : AttestationVerdict :=
  match decision with
  | .unresolved reason upsert =>
      if ¬ isAttestableReason reason then .notApplicable
      else if attestation.throughSeq.any (· < row.mergeSeq) then .notApplicable
      else if now < row.committedAt + attestation.graceMs then
        .gracePending (row.committedAt + attestation.graceMs)
      else .attested (.directConfirmed (some { upsert with
        state := .directConfirmed, prNumber := none, reason := none, mergedAt := none }))
  | _ => .notApplicable

/-- The verdict of the attestation of the epoch, if there is one, on an undecided row. -/
def judge (attestation : Option Attestation) (decision : EvidenceDecision)
    (row : MergeSequenceRow) : Program AttestationVerdict :=
  match attestation with
  | some attestation =>
      if decision.isUnresolved then do
        let now ← .perform .now
        pure (applyAttestation attestation decision row now)
      else pure .notApplicable
  | none => pure .notApplicable

/-! ### What a decision says about the stored evidence -/

/-- A decision about a row, given the evidence that was read for it. -/
structure Resolves (seqEpoch : Int) (row : MergeSequenceRow) (existing : Option EvidenceRow)
    (decision : EvidenceDecision) : Prop where
  /-- What is stored is stored for the row. -/
  stores : ∀ upsert, decision.upsert = some upsert →
    upsert.seqEpoch = seqEpoch ∧ upsert.mergeSeq = row.mergeSeq
  /-- A confirmed pull request is the stored one, if one is stored. -/
  pr : ∀ prNumber mergedAt upsert, decision = .prConfirmed prNumber mergedAt upsert →
    upsert.state = .prConfirmed ∧ upsert.prNumber = some prNumber ∧
      ∀ evidence, existing = some evidence → evidence.Chk → evidence.state = .prConfirmed →
        evidence.prNumber = some prNumber
  /-- A direct push is attested now, or stored as one. -/
  direct : ∀ upsert, decision = .directConfirmed upsert →
    (∀ stored, upsert = some stored → stored.state = .directConfirmed) ∧
      (upsert = none → ∃ evidence, existing = some evidence ∧ evidence.state = .directConfirmed)

variable {seqEpoch : Int} {row : MergeSequenceRow} {existing : Option EvidenceRow}

theorem resolves_unresolved (reason : BlockReason) :
    Resolves seqEpoch row existing (unresolved seqEpoch row reason) := by
  constructor
  · intro upsert stored
    cases stored
    exact ⟨rfl, rfl⟩
  · intro prNumber mergedAt upsert same
    cases same
  · intro upsert same
    cases same

/-- A confirmation is sound when the stored evidence does not already name a pull request. -/
theorem resolves_confirmed {prNumber : Int} {mergedAt : Instant}
    (agrees : ∀ evidence, existing = some evidence → evidence.Chk →
      evidence.state = .prConfirmed → evidence.prNumber = some prNumber) :
    Resolves seqEpoch row existing (confirmed seqEpoch row prNumber mergedAt) := by
  constructor
  · intro upsert stored
    cases stored
    exact ⟨rfl, rfl⟩
  · intro _ _ _ same
    cases same
    exact ⟨rfl, rfl, agrees⟩
  · intro upsert same
    cases same

variable {evidence : EvidenceRow} {decision : EvidenceDecision}

theorem resolves_settled (settles : settled seqEpoch row evidence = some decision) :
    Resolves seqEpoch row (some evidence) decision := by
  unfold settled at settles
  split at settles
  next prNumber mergedAt state pr merged =>
    cases settles
    apply resolves_confirmed
    intro other same _ _
    cases same
    exact pr
  next state =>
    cases settles
    constructor
    · intro upsert stored
      cases stored
    · intro _ _ _ same
      cases same
    · intro upsert same
      cases same
      refine ⟨?_, fun _ => ⟨evidence, rfl, state⟩⟩
      intro stored impossible
      cases impossible
  next => cases settles

/-- Evidence that names a pull request settles its row. -/
theorem settled_of_prConfirmed (checked : evidence.Chk) (state : evidence.state = .prConfirmed) :
    (settled seqEpoch row evidence).isSome := by
  obtain ⟨named, -, merged, -⟩ := checked
  obtain ⟨prNumber, pr⟩ := Option.isSome_iff_exists.mp (named.mp state)
  obtain ⟨mergedAt, at_eq⟩ := Option.isSome_iff_exists.mp (merged state)
  simp [settled, state, pr, at_eq]

/-- An attested decision is a direct push of the same row. -/
theorem resolves_attested {attestation : Attestation} {attested : EvidenceDecision} {now : Instant}
    (resolves : Resolves seqEpoch row existing decision)
    (verdict : applyAttestation attestation decision row now = .attested attested) :
    Resolves seqEpoch row existing attested := by
  unfold applyAttestation at verdict
  split at verdict
  next reason upsert =>
    split at verdict
    · cases verdict
    · split at verdict
      · cases verdict
      · split at verdict
        · cases verdict
        · cases verdict
          have keyed := resolves.stores upsert rfl
          constructor
          · intro stored same
            cases same
            exact keyed
          · intro _ _ _ same
            cases same
          · intro stored same
            cases same
            refine ⟨?_, ?_⟩
            · intro other here
              cases here
              rfl
            · intro impossible
              cases impossible
  next => cases verdict

end PrSearch.MergeNumber
