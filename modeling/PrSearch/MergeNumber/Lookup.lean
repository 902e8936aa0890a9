import Mathlib.Data.List.Nodup
import PrSearch.MergeNumber.Evidence

/-! # The look-up behind `resolveEvidence`

How the pull request of a commit is found. The candidates (the number that the row holds, and the
snapshots that name the commit) are verified first. Only if none of them matches, the pull requests
of the commit are enumerated page by page, up to a limit. One match confirms, and two stop the
numbering.
-/
namespace PrSearch.MergeNumber.Lookup

open Sequence

/-! ### What a look-up reads -/

/-- A `GitHubApiError`, or anything else that is thrown. -/
inductive LookupFault
  | gitHubApi (message : String)
  | other (message : String)
  deriving DecidableEq, Repr

/-- The detail of a pull request, with its times read. -/
structure PullRequestEvidence where
  merged : Bool
  mergedAt : Option Instant
  mergeCommitSha : Option Sha
  updatedAt : Option Instant
  baseRef : String
  baseRepoId : Option Int
  deriving DecidableEq, Repr

structure CommitPullRequestsPage where
  items : List Int
  nextPage : Option Int
  deriving DecidableEq, Repr

/-- `PullRequestEvidenceSource`, for one repository and one commit. -/
structure EvidenceSource where
  getPullRequestEvidence : Int → Except LookupFault (Option PullRequestEvidence)
  listPullRequestsForCommitPage : Int → Except LookupFault CommitPullRequestsPage

/-- A row of `findSnapshotsByMergeCommit`: `mergedAt` is there when the document holds a time. -/
structure PullRequestSnapshot where
  repositoryId : Int
  prNumber : Int
  documentVersion : Int
  state : Option String
  mergeCommitSha : Option Sha
  baseBranch : Option String
  mergedAt : Option Instant
  deriving DecidableEq, Repr

inductive EvidenceSourceKind
  | prDetail
  | verifiedSnapshot
  | unresolvedLookup
  | authoritativeAbsence
  | operatorAttestation
  deriving DecidableEq, Repr

/-- `matched_repository_id`, `matched_base_branch` and `matched_merge_commit_sha` -/
structure MatchedCommit where
  repositoryId : Int
  baseBranch : String
  mergeCommitSha : Sha
  deriving DecidableEq, Repr

structure EvidenceProof where
  matched : Option MatchedCommit := none
  pageCount : Option Nat := none
  lookupComplete : Option Bool := none
  resumePage : Option Int := none
  deriving DecidableEq, Repr

/-- A stored row of evidence with what the look-up reads of it besides. -/
structure StoredEvidence extends EvidenceRow where
  sourceKind : EvidenceSourceKind
  sourcePrVersion : Option Int
  checkedAt : Instant
  proof : EvidenceProof
  deriving DecidableEq, Repr

structure EvidenceDeps where
  source : Option EvidenceSource
  /-- How many parents `readCommit` finds; `none` when there is no such commit. -/
  readCommit : Except LookupFault (Option Nat)
  findSnapshotsByMergeCommit : Except LookupFault (List PullRequestSnapshot)
  maxPagesPerRound : Option Nat
  now : Instant

structure EvidenceSubject where
  repositoryId : Int
  baseBranch : String
  commitSha : Sha
  candidateHint : Option Int
  existing : Option StoredEvidence
  deriving DecidableEq, Repr

inductive Decision
  | prConfirmed (prNumber : Int) (mergedAt : Instant) (sourceKind : EvidenceSourceKind)
      (sourcePrVersion : Option Int) (proof : EvidenceProof)
  | directConfirmed
  | unresolved (reason : BlockReason) (proof : EvidenceProof)
  deriving DecidableEq, Repr

/-- `EVIDENCE_RECHECK_MS` -/
def evidenceRecheckMs : Int := 60000

/-- `DEFAULT_MAX_PAGES` -/
def defaultMaxPages : Nat := 100

/-! ### Verifying one pull request -/

/-- One element of `matches`. -/
structure Match where
  prNumber : Int
  mergedAt : Instant
  sourceKind : EvidenceSourceKind
  version : Option Int
  deriving DecidableEq, Repr

/-- The detail is the squash merge of this commit: its merge time if it is. -/
def detailMatches (subject : EvidenceSubject) (detail : PullRequestEvidence) : Option Instant :=
  if detail.merged ∧ detail.mergeCommitSha.map toLowerCase = some (toLowerCase subject.commitSha) ∧
      detail.baseRef = subject.baseBranch ∧ detail.baseRepoId = some subject.repositoryId then
    detail.mergedAt
  else none

/-- The snapshot meets the same conditions. -/
def snapshotMatches (subject : EvidenceSubject) (snapshot : PullRequestSnapshot) :
    Option Instant :=
  if snapshot.state = some "merged" ∧
      snapshot.mergeCommitSha.map toLowerCase = some (toLowerCase subject.commitSha) ∧
      snapshot.baseBranch = some subject.baseBranch ∧
      snapshot.repositoryId = subject.repositoryId then
    snapshot.mergedAt
  else none

/-- With a source its detail decides, and without one the snapshot. -/
def verify (deps : EvidenceDeps) (subject : EvidenceSubject) (prNumber : Int)
    (snapshot : Option PullRequestSnapshot) : Except LookupFault (Option Match) :=
  match deps.source with
  | some source => do
      let detail ← source.getPullRequestEvidence prNumber
      pure (detail.bind fun detail => (detailMatches subject detail).map fun mergedAt =>
        ⟨prNumber, mergedAt, .prDetail, detail.updatedAt⟩)
  | none => .ok (snapshot.bind fun snapshot => (snapshotMatches subject snapshot).map
      fun mergedAt => ⟨prNumber, mergedAt, .verifiedSnapshot, some snapshot.documentVersion⟩)

/-! ### Candidates -/

/-- A map from numbers to snapshots, in the order of insertion. -/
abbrev Candidates := List (Int × Option PullRequestSnapshot)

/-- `Map.set`: a key that is already there keeps its place. -/
def Candidates.set (snapshot : PullRequestSnapshot) : Candidates → Candidates
  | [] => [(snapshot.prNumber, some snapshot)]
  | (prNumber, held) :: rest =>
      if prNumber = snapshot.prNumber then (prNumber, some snapshot) :: rest
      else (prNumber, held) :: Candidates.set snapshot rest

/-- The number that the row holds, and the snapshots of the commit. -/
def candidatesOf (hint : Option Int) (snapshots : List PullRequestSnapshot) : Candidates :=
  snapshots.foldl (fun candidates snapshot => candidates.set snapshot)
    (hint.toList.map fun prNumber => (prNumber, none))

def verifyCandidates (deps : EvidenceDeps) (subject : EvidenceSubject) :
    Candidates → List Match → Except LookupFault (List Match)
  | [], found => .ok found
  | (prNumber, snapshot) :: rest, found => do
      let here ← verify deps subject prNumber snapshot
      verifyCandidates deps subject rest (found ++ here.toList)

/-! ### Enumeration -/

/-- What the loop over the pages carries: `seen` and `matches`. -/
structure Enumeration where
  seen : List Int
  found : List Match
  deriving DecidableEq, Repr

/-- The items of one page; a number that was seen is not verified again. -/
def verifyItems (deps : EvidenceDeps) (subject : EvidenceSubject) :
    List Int → Enumeration → Except LookupFault Enumeration
  | [], sofar => .ok sofar
  | prNumber :: rest, sofar =>
      if prNumber ∈ sofar.seen then verifyItems deps subject rest sofar
      else do
        let here ← verify deps subject prNumber none
        verifyItems deps subject rest ⟨sofar.seen ++ [prNumber], sofar.found ++ here.toList⟩

/-- How the loop has ended: all pages read, or the limit met before page `resumePage`. -/
structure Enumerated where
  found : List Match
  pageCount : Nat
  resumePage : Option Int
  deriving DecidableEq, Repr

/-- One page: what has been seen after it, and the page that follows. -/
def readPage (deps : EvidenceDeps) (subject : EvidenceSubject) (source : EvidenceSource)
    (page : Int) (sofar : Enumeration) : Except LookupFault (Enumeration × Option Int) := do
  let response ← source.listPullRequestsForCommitPage page
  let sofar ← verifyItems deps subject response.items sofar
  pure (sofar, response.nextPage)

/-- The loop over the pages: `left` more of them may be read after this one. -/
def enumeratePages (deps : EvidenceDeps) (subject : EvidenceSubject) (source : EvidenceSource) :
    Nat → Nat → Int → Enumeration → Except LookupFault Enumerated
  | 0, pageCount, page, sofar => do
      let (sofar, nextPage) ← readPage deps subject source page sofar
      pure ⟨sofar.found, pageCount + 1, nextPage⟩
  | left + 1, pageCount, page, sofar => do
      let (sofar, nextPage) ← readPage deps subject source page sofar
      match nextPage with
      | none => pure ⟨sofar.found, pageCount + 1, none⟩
      | some next => enumeratePages deps subject source left (pageCount + 1) next sofar

/-- The page that a look-up starts at: one that met the limit is resumed. -/
def startPage (subject : EvidenceSubject) : Int :=
  match subject.existing with
  | some existing =>
      if existing.reason = some .partialLookup then existing.proof.resumePage.getD 1 else 1
  | none => 1

def maxPages (deps : EvidenceDeps) : Nat := deps.maxPagesPerRound.getD defaultMaxPages

/-! ### The decision -/

/-- The decision about what was found, where the numbering may go on or not. -/
def decideMatches (subject : EvidenceSubject) (found : List Match) (finished : EvidenceProof) :
    Decision :=
  match found with
  | [] => .unresolved
      (if finished.lookupComplete = some true then .negativeEvidenceUnavailable
        else .prEvidencePending) finished
  | [found] => .prConfirmed found.prNumber found.mergedAt found.sourceKind found.version
      { finished with
        matched := some ⟨subject.repositoryId, subject.baseBranch, toLowerCase subject.commitSha⟩ }
  | _ :: _ :: _ => .unresolved .mappingConflict finished

/-- The look-up inside the `try`. -/
def lookUp (deps : EvidenceDeps) (subject : EvidenceSubject) (candidates : Candidates) :
    Except LookupFault Decision := do
  let found ← verifyCandidates deps subject candidates []
  let lookupComplete := if candidates.length > 0 then none else some false
  match found, deps.source with
  | [], some source =>
      let enumerated ← enumeratePages deps subject source (maxPages deps - 1) 0 (startPage subject)
        ⟨candidates.map Prod.fst, []⟩
      match enumerated.resumePage, enumerated.found with
      | some next, [] => pure (.unresolved .partialLookup
          ⟨none, some enumerated.pageCount, some false, some next⟩)
      | some _, found => pure (decideMatches subject found
          ⟨none, some enumerated.pageCount, lookupComplete, none⟩)
      | none, found => pure (decideMatches subject found
          ⟨none, some enumerated.pageCount, some true, none⟩)
  | found, _ => pure (decideMatches subject found ⟨none, none, lookupComplete, none⟩)

/-- The decision that stored evidence settles. -/
def settledBy (existing : StoredEvidence) : Option Decision :=
  match existing.state, existing.prNumber, existing.mergedAt with
  | .prConfirmed, some prNumber, some mergedAt => some (.prConfirmed prNumber mergedAt
      (if existing.sourceKind = .verifiedSnapshot then .verifiedSnapshot else .prDetail)
      existing.sourcePrVersion existing.proof)
  | .directConfirmed, _, _ => some .directConfirmed
  | _, _, _ => none

/-- A pending row that was looked up within the last minute. -/
def recentlyChecked (now : Instant) (existing : StoredEvidence) : Bool :=
  now - existing.checkedAt < evidenceRecheckMs

/-- The look-up itself; what GitHub refuses stays undecided. -/
def scanCommit (deps : EvidenceDeps) (subject : EvidenceSubject) : Except LookupFault Decision :=
  match deps.readCommit with
  | .error _ | .ok none => .ok (.unresolved .profileUnverified {})
  | .ok (some parents) =>
      if 2 ≤ parents then .ok (.unresolved .unsupportedMergeProfile {})
      else do
        let snapshots ← deps.findSnapshotsByMergeCommit
        match lookUp deps subject (candidatesOf subject.candidateHint snapshots) with
        | .error (.gitHubApi _) => pure (.unresolved .fetchFailed {})
        | result => result

def resolveEvidence (deps : EvidenceDeps) (subject : EvidenceSubject) (force : Bool) :
    Except LookupFault Decision :=
  match subject.existing.bind settledBy with
  | some decision => .ok decision
  | none =>
      match subject.existing.filter fun existing => existing.state = .unresolved ∧ ¬ force ∧
          existing.reason ≠ some .partialLookup ∧ recentlyChecked deps.now existing with
      | some pending =>
          .ok (.unresolved (pending.reason.getD .prEvidencePending) pending.proof)
      | none => scanCommit deps subject

end PrSearch.MergeNumber.Lookup
