import Mathlib.Data.List.Basic
import Mathlib.Data.List.Sort

/-! # The sequence tables of one space

The rows that `sequence_space`, `merge_sequence` and `mnumber_evidence` hold for one
`(repository_id, base_branch)`: every statement of the repositories below is restricted to that key.
A store carries the constraints of the migrations (primary keys, unique indexes, checks and the
foreign key of the evidence), so a statement that would break one of them fails and leaves no store
behind. The requests that a transaction leaves for other tables (`sequence_work`,
`commit_link_state`) are kept as the list of what was asked for.
-/
namespace PrSearch.Sequence

/-- A commit id as the tables and the graphs spell it. -/
abbrev Sha := String

/-- Milliseconds since the epoch. -/
abbrev Instant := Int

/-- `String.prototype.toLowerCase` on hexadecimal text. -/
def toLowerCase (s : String) : String := String.ofList (s.toList.map Char.toLower)

/-- `String.prototype.slice(0, n)` -/
def slice (n : Nat) (s : String) : String := String.ofList (s.toList.take n)

/-- What a failed call throws. -/
inductive Fault
  | graph (kind : String) (message : String)
  | error (message : String)
  deriving DecidableEq, Repr

/-! ### Rows -/

inductive SequenceSpaceState
  | ok
  | stale
  | reassigning
  | unknown
  deriving DecidableEq, Repr

inductive BlockReason
  | prEvidencePending
  | profileUnverified
  | unsupportedMergeProfile
  | partialLookup
  | fetchFailed
  | negativeEvidenceUnavailable
  | mappingConflict
  | canonicalMismatch
  | numberCapacityExceeded
  deriving DecidableEq, Repr

structure Blocked where
  seq : Int
  reason : BlockReason
  deriving DecidableEq, Repr

structure SequenceSpace where
  seqEpoch : Int
  headSha : Option Sha
  headSeq : Int
  state : SequenceSpaceState
  lastError : Option String
  mnumberHeadSeq : Int
  mnumberHead : Int
  mnumberBlocked : Option Blocked
  deriving DecidableEq, Repr

structure MergeSequenceRow where
  seqEpoch : Int
  mergeSeq : Int
  commitSha : Sha
  pullRequestNumber : Option Int
  committedAt : Instant
  mergeNumber : Option Int
  deriving DecidableEq, Repr

inductive EvidenceState
  | unresolved
  | prConfirmed
  | directConfirmed
  deriving DecidableEq, Repr

structure EvidenceRow where
  seqEpoch : Int
  mergeSeq : Int
  commitSha : Sha
  state : EvidenceState
  prNumber : Option Int
  reason : Option BlockReason
  evidenceVersion : Int
  mergedAt : Option Instant
  deriving DecidableEq, Repr

inductive WorkKind
  | refresh
  | project
  | reconcile
  | materialize
  | announce
  | tag
  deriving DecidableEq, Repr

/-- What a transaction asks of the tables outside this model. -/
inductive Intent
  | work (kind : WorkKind) (seqEpoch : Int) (keyExtra : List String)
  | relink (commitShas : List Sha)
  deriving DecidableEq, Repr

/-! ### Constraints -/

def mergeNumberMax : Int := 9007199254740991

/-- `sequence_space_mnumber_checkpoint_chk` -/
def SequenceSpace.CheckpointChk (space : SequenceSpace) : Prop :=
  0 ≤ space.mnumberHead ∧ space.mnumberHead ≤ space.mnumberHeadSeq ∧
    space.mnumberHeadSeq ≤ space.headSeq

instance (space : SequenceSpace) : Decidable space.CheckpointChk :=
  inferInstanceAs (Decidable (_ ∧ _ ∧ _))

/-- `merge_sequence_merge_number_range_chk` and `merge_sequence_merge_number_pr_chk` -/
def MergeSequenceRow.NumberChk (row : MergeSequenceRow) : Prop :=
  row.mergeNumber.isSome → 1 ≤ row.mergeNumber.getD 0 ∧ row.mergeNumber.getD 0 ≤ mergeNumberMax ∧
    row.pullRequestNumber.isSome

instance (row : MergeSequenceRow) : Decidable row.NumberChk :=
  inferInstanceAs (Decidable (_ → _))

/-- Two rows of one epoch differ in sequence and commit, and when both are numbered also in number
and pull request: the primary key and the three unique indexes. -/
def MergeSequenceRow.Distinct (a b : MergeSequenceRow) : Prop :=
  a.seqEpoch = b.seqEpoch →
    a.mergeSeq ≠ b.mergeSeq ∧ a.commitSha ≠ b.commitSha ∧
      (a.mergeNumber.isSome → b.mergeNumber.isSome →
        a.mergeNumber ≠ b.mergeNumber ∧ a.pullRequestNumber ≠ b.pullRequestNumber)

instance (a b : MergeSequenceRow) : Decidable (a.Distinct b) :=
  inferInstanceAs (Decidable (_ → _))

theorem MergeSequenceRow.Distinct.symm {a b : MergeSequenceRow} (distinct : a.Distinct b) :
    b.Distinct a := by
  intro same
  obtain ⟨seq, sha, numbers⟩ := distinct same.symm
  exact ⟨seq.symm, sha.symm, fun hb ha => ⟨(numbers ha hb).1.symm, (numbers ha hb).2.symm⟩⟩

/-- The checks of `mnumber_evidence`. -/
def EvidenceRow.Chk (row : EvidenceRow) : Prop :=
  (row.state = .prConfirmed ↔ row.prNumber.isSome) ∧
    (row.state = .unresolved → row.reason.isSome) ∧
    (row.state = .prConfirmed → row.mergedAt.isSome) ∧ 1 ≤ row.evidenceVersion

instance (row : EvidenceRow) : Decidable row.Chk :=
  inferInstanceAs (Decidable (_ ∧ _ ∧ _ ∧ _))

/-- The tables before their constraints are checked. -/
structure Tables where
  space : Option SequenceSpace
  rows : List MergeSequenceRow
  evidence : List EvidenceRow
  intents : List Intent
  deriving DecidableEq, Repr

structure Tables.Lawful (t : Tables) : Prop where
  space : ∀ space ∈ t.space, space.CheckpointChk
  numbers : ∀ row ∈ t.rows, row.NumberChk
  distinct : t.rows.Pairwise MergeSequenceRow.Distinct
  evidence : ∀ row ∈ t.evidence, row.Chk
  evidenceKey : t.evidence.Pairwise fun a b =>
    a.seqEpoch = b.seqEpoch → a.mergeSeq ≠ b.mergeSeq
  evidenceParent : ∀ row ∈ t.evidence, ∃ parent ∈ t.rows,
    parent.seqEpoch = row.seqEpoch ∧ parent.mergeSeq = row.mergeSeq

instance (t : Tables) : Decidable t.Lawful :=
  decidable_of_iff
    ((∀ space ∈ t.space.toList, space.CheckpointChk) ∧ (∀ row ∈ t.rows, row.NumberChk) ∧
      t.rows.Pairwise MergeSequenceRow.Distinct ∧ (∀ row ∈ t.evidence, row.Chk) ∧
      (t.evidence.Pairwise fun a b => a.seqEpoch = b.seqEpoch → a.mergeSeq ≠ b.mergeSeq) ∧
      ∀ row ∈ t.evidence, ∃ parent ∈ t.rows,
        parent.seqEpoch = row.seqEpoch ∧ parent.mergeSeq = row.mergeSeq)
    ⟨fun ⟨a, b, c, d, e, f⟩ => ⟨by simpa using a, b, c, d, e, f⟩,
      fun ⟨a, b, c, d, e, f⟩ => ⟨by simpa using a, b, c, d, e, f⟩⟩

/-- Tables that meet their constraints. -/
structure Store extends Tables where
  lawful : toTables.Lawful

theorem Store.ext_tables {a b : Store} (same : a.toTables = b.toTables) : a = b := by
  cases a
  cases b
  cases same
  rfl

instance : DecidableEq Store := fun a b =>
  decidable_of_iff (a.toTables = b.toTables) ⟨Store.ext_tables, fun same => by rw [same]⟩

/-- No branch of the repository has been numbered yet. -/
def Store.empty : Store where
  space := none
  rows := []
  evidence := []
  intents := []
  lawful := by decide

/-- A statement takes effect only if the tables it would leave meet the constraints. -/
def Tables.accept (t : Tables) : Except Fault Store :=
  if lawful : t.Lawful then .ok ⟨t, lawful⟩ else .error (.error "constraint violation")

theorem Tables.accept_ok {t : Tables} {store : Store} (accepted : t.accept = .ok store) :
    store.toTables = t := by
  unfold accept at accepted
  split at accepted
  · cases accepted
    rfl
  · cases accepted

/-! ### Reads -/

namespace Store

def findSequenceSpace (store : Store) : Option SequenceSpace := store.space

def findSeqByCommit (seqEpoch : Int) (commitSha : Sha) (store : Store) : Option Int :=
  (store.rows.find? fun row => row.seqEpoch = seqEpoch ∧ row.commitSha = commitSha).map
    MergeSequenceRow.mergeSeq

def countAbove (seqEpoch aboveSeqExclusive : Int) (store : Store) : Int :=
  store.rows.countP fun row => row.seqEpoch = seqEpoch ∧ aboveSeqExclusive < row.mergeSeq

/-- `ORDER BY merge_seq` -/
def orderBySeq (rows : List MergeSequenceRow) : List MergeSequenceRow :=
  rows.insertionSort fun a b => a.mergeSeq ≤ b.mergeSeq

end Store

structure StoredSequenceEntry where
  mergeSeq : Int
  commitSha : Sha
  deriving DecidableEq, Repr

namespace Store

def listStoredSequence (seqEpoch fromSeq : Int) (store : Store) : List StoredSequenceEntry :=
  (orderBySeq (store.rows.filter fun row => row.seqEpoch = seqEpoch ∧ fromSeq ≤ row.mergeSeq)).map
    fun row => ⟨row.mergeSeq, row.commitSha⟩

def listCandidatesAfter (seqEpoch afterSeq : Int) (limit : Nat) (store : Store) :
    List MergeSequenceRow :=
  (orderBySeq (store.rows.filter fun row =>
    row.seqEpoch = seqEpoch ∧ afterSeq < row.mergeSeq)).take limit

def listNumberedPullRequests (seqEpoch : Int) (prNumbers : List Int) (store : Store) : List Int :=
  (store.rows.filter fun row => row.seqEpoch = seqEpoch ∧ row.mergeNumber.isSome).filterMap
    fun row => row.pullRequestNumber.filter (· ∈ prNumbers)

/-- The evidence of one sequence number; `listEvidence` and `lockEvidence` look up a list of them. -/
def findEvidence (seqEpoch mergeSeq : Int) (store : Store) : Option EvidenceRow :=
  store.evidence.find? fun row => row.seqEpoch = seqEpoch ∧ row.mergeSeq = mergeSeq

def listEvidence (seqEpoch : Int) (mergeSeqs : List Int) (store : Store) : List EvidenceRow :=
  mergeSeqs.filterMap fun mergeSeq => store.findEvidence seqEpoch mergeSeq

/-- The latest of the confirmed rows at or below `uptoSeqInclusive`. -/
def findLastConfirmedMergedAt (seqEpoch uptoSeqInclusive : Int) (store : Store) : Option Instant :=
  (store.evidence.filter fun row => row.seqEpoch = seqEpoch ∧ row.mergeSeq ≤ uptoSeqInclusive ∧
      row.state = .prConfirmed).foldl
    (fun best row => match best with
      | some kept => if kept.mergeSeq < row.mergeSeq then some row else best
      | none => some row) none
    |>.bind EvidenceRow.mergedAt

/-- Commits whose `(commit_sha, pull_request_number)` is in one of the two epochs only. -/
def listChangedCommitsBetweenEpochs (oldEpoch newEpoch : Int) (store : Store) : List Sha :=
  let pairs (epoch : Int) := (store.rows.filter fun row => row.seqEpoch = epoch).map
    fun row => (row.commitSha, row.pullRequestNumber)
  ((pairs oldEpoch).filter (· ∉ pairs newEpoch) ++ (pairs newEpoch).filter (· ∉ pairs oldEpoch)).map
    (fun pair => toLowerCase pair.1) |>.dedup

end Store

/-! ### Statements -/

def MergeSequenceRow.keyed (seqEpoch mergeSeq : Int) (row : MergeSequenceRow) : Bool :=
  row.seqEpoch = seqEpoch ∧ row.mergeSeq = mergeSeq

structure MergeSequenceInsert where
  seqEpoch : Int
  mergeSeq : Int
  commitSha : Sha
  pullRequestNumber : Option Int
  committedAt : Instant
  deriving DecidableEq, Repr

structure MergeNumberAssignment where
  mergeSeq : Int
  prNumber : Int
  mergeNumber : Int
  deriving DecidableEq, Repr

structure MergeNumberCheckpoint where
  headSeq : Int
  headNumber : Int
  blocked : Option Blocked
  deriving DecidableEq, Repr

structure EvidenceUpsert where
  seqEpoch : Int
  mergeSeq : Int
  commitSha : Sha
  state : EvidenceState
  prNumber : Option Int
  reason : Option BlockReason
  mergedAt : Option Instant
  deriving DecidableEq, Repr

namespace Tables

def ensureSequenceSpace (t : Tables) : Tables :=
  match t.space with
  | some _ => t
  | none => { t with space := some ⟨1, none, 0, .ok, none, 0, 0, none⟩ }

/-- `UPDATE sequence_space … WHERE repository_id = $1 AND base_branch = $2` -/
def updateSpace (f : SequenceSpace → SequenceSpace) (t : Tables) : Tables :=
  { t with space := t.space.map f }

def advanceHead (headSha : Sha) (headSeq : Int) : Tables → Tables :=
  updateSpace fun space =>
    { space with headSha := some headSha, headSeq := headSeq, state := .ok, lastError := none }

def bumpEpoch : Tables → Tables :=
  updateSpace fun space =>
    { space with
      seqEpoch := space.seqEpoch + 1, headSeq := 0, headSha := none, state := .reassigning,
      mnumberHeadSeq := 0, mnumberHead := 0, mnumberBlocked := none }

def markStale (reason : String) (t : Tables) : Tables :=
  let lastError := some (slice 500 reason)
  match t.space with
  | none => { t with space := some ⟨1, none, 0, .stale, lastError, 0, 0, none⟩ }
  | some space => { t with space := some { space with state := .stale, lastError := lastError } }

def markReassigning : Tables → Tables :=
  updateSpace fun space => { space with state := .reassigning, lastError := none }

def restoreSequenceState (state : SequenceSpaceState) (lastError : Option String) :
    Tables → Tables :=
  updateSpace fun space =>
    if space.state = .reassigning then { space with state := state, lastError := lastError }
    else space

/-- Insert, or fill in the pull request of the same commit at the same key. The row count is zero
when another commit holds the key. -/
def upsertMergeSequence (entry : MergeSequenceInsert) (t : Tables) : Nat × Tables :=
  match t.rows.find? (MergeSequenceRow.keyed entry.seqEpoch entry.mergeSeq) with
  | none =>
      (1, { t with rows := t.rows ++ [⟨entry.seqEpoch, entry.mergeSeq, entry.commitSha,
        entry.pullRequestNumber, entry.committedAt, none⟩] })
  | some held =>
      if held.commitSha = entry.commitSha then
        (1, { t with rows := t.rows.map fun row =>
          if MergeSequenceRow.keyed entry.seqEpoch entry.mergeSeq row then
            { row with
              pullRequestNumber := row.pullRequestNumber.orElse fun _ => entry.pullRequestNumber }
          else row })
      else (0, t)

/-- The rows of `fromEpoch` up to a sequence number, as rows of `toEpoch`. Merge numbers stay
behind, and a key already present in `toEpoch` is left alone. -/
def copySequencesUpTo (fromEpoch toEpoch uptoSeqInclusive : Int) (t : Tables) : Nat × Tables :=
  let copied := (t.rows.filter fun row =>
      row.seqEpoch = fromEpoch ∧ row.mergeSeq ≤ uptoSeqInclusive ∧
        ¬ t.rows.any (MergeSequenceRow.keyed toEpoch row.mergeSeq)).map
    fun row => { row with seqEpoch := toEpoch, mergeNumber := none }
  (copied.length, { t with rows := t.rows ++ copied })

/-- The assignment that `row` matches, if it may still take it. -/
def assignmentFor (seqEpoch : Int) (assignments : List MergeNumberAssignment)
    (row : MergeSequenceRow) : Option MergeNumberAssignment :=
  if row.seqEpoch = seqEpoch then
    assignments.find? fun a => row.mergeSeq = a.mergeSeq ∧
      (row.pullRequestNumber = none ∨ row.pullRequestNumber = some a.prNumber) ∧
      (row.mergeNumber = none ∨ row.mergeNumber = some a.mergeNumber)
  else none

def assignMergeNumbers (seqEpoch : Int) (assignments : List MergeNumberAssignment) (t : Tables) :
    Nat × Tables :=
  (t.rows.countP fun row => (assignmentFor seqEpoch assignments row).isSome,
    { t with rows := t.rows.map fun row =>
      match assignmentFor seqEpoch assignments row with
      | some a => { row with mergeNumber := some a.mergeNumber, pullRequestNumber := some a.prNumber }
      | none => row })

def advanceMergeNumberCheckpoint (seqEpoch : Int) (checkpoint : MergeNumberCheckpoint)
    (t : Tables) : Nat × Tables :=
  match t.space with
  | none => (0, t)
  | some space =>
      if space.seqEpoch = seqEpoch then
        (1, { t with space := some { space with
          mnumberHeadSeq := checkpoint.headSeq, mnumberHead := checkpoint.headNumber,
          mnumberBlocked := checkpoint.blocked } })
      else (0, t)

/-- Insert, or replace the evidence of the same commit unless that would take a confirmation back.
The row count is zero when the stored row is left alone. -/
def upsertEvidence (input : EvidenceUpsert) (t : Tables) : Nat × Tables :=
  let commitSha := toLowerCase input.commitSha
  match t.evidence.find? fun row => row.seqEpoch = input.seqEpoch ∧ row.mergeSeq = input.mergeSeq with
  | none =>
      (1, { t with evidence := t.evidence ++ [⟨input.seqEpoch, input.mergeSeq, commitSha,
        input.state, input.prNumber, input.reason, 1, input.mergedAt⟩] })
  | some held =>
      if held.commitSha = commitSha ∧ ¬ (held.state ≠ .unresolved ∧ input.state = .unresolved) then
        (1, { t with evidence := t.evidence.map fun row =>
          if row.seqEpoch = input.seqEpoch ∧ row.mergeSeq = input.mergeSeq then
            { row with state := input.state, prNumber := input.prNumber, reason := input.reason,
                       evidenceVersion := row.evidenceVersion + 1, mergedAt := input.mergedAt }
          else row })
      else (0, t)

end Tables

/-- The writing statements of the sequence repositories. -/
inductive Write
  | ensureSequenceSpace
  | upsertMergeSequence (entry : MergeSequenceInsert)
  | copySequencesUpTo (fromEpoch toEpoch uptoSeqInclusive : Int)
  | bumpEpoch
  | advanceHead (headSha : Sha) (headSeq : Int)
  | markStale (reason : String)
  | markReassigning
  | restoreSequenceState (state : SequenceSpaceState) (lastError : Option String)
  | assignMergeNumbers (seqEpoch : Int) (assignments : List MergeNumberAssignment)
  | advanceMergeNumberCheckpoint (seqEpoch : Int) (checkpoint : MergeNumberCheckpoint)
  | upsertEvidence (input : EvidenceUpsert)
  | request (intent : Intent)
  deriving DecidableEq, Repr

/-- Whether the statement writes the `sequence_space` row, whose lock it then keeps. -/
def Write.onSpace : Write → Bool
  | .ensureSequenceSpace | .bumpEpoch | .advanceHead .. | .markStale .. | .markReassigning
  | .restoreSequenceState .. | .advanceMergeNumberCheckpoint .. => true
  | _ => false

/-- Run one statement: the row count (for `bumpEpoch` the returned epoch) and the store it leaves.
The statements that throw on a row count of zero are those whose repository function does. -/
def Write.run (write : Write) (store : Store) : Except Fault (Int × Store) :=
  let accepted (answer : Int × Tables) : Except Fault (Int × Store) :=
    match answer.2.accept with
    | .ok next => .ok (answer.1, next)
    | .error fault => .error fault
  let t := store.toTables
  match write with
  | .ensureSequenceSpace => accepted (1, t.ensureSequenceSpace)
  | .upsertMergeSequence entry =>
      let (count, next) := t.upsertMergeSequence entry
      if count = 0 then .error (.error "another commit holds the sequence number")
      else accepted (count, next)
  | .copySequencesUpTo fromEpoch toEpoch upto =>
      let (count, next) := t.copySequencesUpTo fromEpoch toEpoch upto
      accepted (count, next)
  | .bumpEpoch =>
      match t.space with
      | none => .error (.error "no sequence space")
      | some space => accepted (space.seqEpoch + 1, t.bumpEpoch)
  | .advanceHead headSha headSeq => accepted (1, t.advanceHead headSha headSeq)
  | .markStale reason => accepted (1, t.markStale reason)
  | .markReassigning => accepted (1, t.markReassigning)
  | .restoreSequenceState state lastError => accepted (1, t.restoreSequenceState state lastError)
  | .assignMergeNumbers seqEpoch assignments =>
      let (count, next) := t.assignMergeNumbers seqEpoch assignments
      accepted (count, next)
  | .advanceMergeNumberCheckpoint seqEpoch checkpoint =>
      let (count, next) := t.advanceMergeNumberCheckpoint seqEpoch checkpoint
      accepted (count, next)
  | .upsertEvidence input =>
      let (count, next) := t.upsertEvidence input
      if count = 0 then .error (.error "evidence kept") else accepted (count, next)
  | .request intent => accepted (1, { t with intents := t.intents ++ [intent] })

/-- What a transaction would leave if it committed now. -/
def replay : List Write → Store → Except Fault Store
  | [], store => .ok store
  | write :: rest, store =>
      match write.run store with
      | .error fault => .error fault
      | .ok (_, next) => replay rest next

theorem replay_append (first rest : List Write) (store : Store) :
    replay (first ++ rest) store =
      match replay first store with
      | .error fault => .error fault
      | .ok next => replay rest next := by
  induction first generalizing store with
  | nil => rfl
  | cons write more ih =>
    simp only [List.cons_append, replay]
    cases write.run store with
    | error fault => rfl
    | ok answer => exact ih answer.2

end PrSearch.Sequence
