import PrSearch.Index.CommitLinks
import PrSearch.Links.Adoption

/-! # The pull requests of a commit

A commit belongs to the pull requests that have merged it, and to those that list it. But a commit
that is on the present chain of a tracked branch belongs to the one it came there with, and to no
other that lists it. So what a commit belongs to is seen through four tables, and each of them is
written for itself. Who writes asks for the commits whose links are to be shown again.
-/
namespace PrSearch.Links

open Query (Text)
open PrSearch.Relation (Sha isHex)
open Index.CommitLinks (CommitLinkState normalizeLinkNumbers maxSafeInteger)
open Rows

structure MergeSequenceRow where
  baseBranch : Text
  seqEpoch : Nat
  mergeSeq : Nat
  commitSha : Text
  pullRequestNumber : Option Nat
  deriving DecidableEq

namespace MergeSequenceRow

def key (row : MergeSequenceRow) : Text × Nat × Nat := (row.baseBranch, row.seqEpoch, row.mergeSeq)

end MergeSequenceRow

abbrev MergeSequence := Table MergeSequenceRow.key

/-- The tables of a repository that its links are read from. -/
structure LinkTables where
  store : LinkStore
  sequenceBranches : List Text
  seqEpoch : Text → Nat
  mergeSequence : MergeSequence

/-! ### What is read -/

/-- What is shown of the links of a commit. -/
abbrev LinkView := List Int × CommitLinkState

section Read

variable (tables : LinkTables) (sha : Sha)

/-- `CHAIN_ROWS_OF_LINK` -/
def chainRowsOfLink : List MergeSequenceRow :=
  tables.mergeSequence.rows.filter fun row =>
    tables.sequenceBranches.contains row.baseBranch &&
      row.seqEpoch = tables.seqEpoch row.baseBranch && row.commitSha = sha.text

/-- `EFFECTIVE_LINK_SQL` -/
def effective (link : PullRequestCommitLinkRow) : Bool :=
  link.evidence = .merge || (chainRowsOfLink tables link.commitSha).isEmpty ||
    (chainRowsOfLink tables link.commitSha).any fun row => row.pullRequestNumber = some link.prNumber

def effectiveLinks : List PullRequestCommitLinkRow :=
  tables.store.links.rows.filter fun link => link.commitSha = sha && effective tables link

def listLinkedPullRequestNumbers : List Nat :=
  ((effectiveLinks tables sha).map PullRequestCommitLinkRow.prNumber).dedup.insertionSort (· ≤ ·)

/-- There is an observation of the pull request, and it is verified. -/
def verifiedPullRequest (prNumber : Nat) : Bool :=
  (findLinkObservation tables.store.observations prNumber).any fun observation =>
    observation.verificationState = .verified

def verifiedLinks : Bool :=
  (effectiveLinks tables sha).all fun link => verifiedPullRequest tables link.prNumber

/-- What there is to be shown. -/
def currentLinkView : LinkView :=
  ((listLinkedPullRequestNumbers tables sha).map fun (n : Nat) => (n : Int),
    if verifiedLinks tables sha then .verified else .partial_)

end Read

/-! ### What is written -/

structure SequenceEntry where
  mergeSeq : Nat
  commitSha : Text
  pullRequestNumber : Option Nat

section Write

variable (baseBranch : Text) (seqEpoch : Nat)

/-- A number that is known is kept. Another commit in the place is an error. -/
def upsertMergeSequence (rows : MergeSequence) (entry : SequenceEntry) : Option MergeSequence :=
  match rows.rows.find? fun row => row.key = (baseBranch, seqEpoch, entry.mergeSeq) with
  | none =>
      some (rows.put ⟨baseBranch, seqEpoch, entry.mergeSeq, entry.commitSha, entry.pullRequestNumber⟩)
  | some stored =>
      if stored.commitSha = entry.commitSha then
        some (rows.put
          ⟨baseBranch, seqEpoch, entry.mergeSeq, entry.commitSha,
            stored.pullRequestNumber.or entry.pullRequestNumber⟩)
      else none

def upsertMergeSequences : MergeSequence → List SequenceEntry → Option MergeSequence
  | rows, [] => some rows
  | rows, entry :: rest =>
      (upsertMergeSequence baseBranch seqEpoch rows entry).bind fun written =>
        upsertMergeSequences written rest

def copySequencesUpTo (fromEpoch toEpoch upTo : Nat) (rows : MergeSequence) : MergeSequence :=
  rows.putAllNew <| (rows.rows.filter fun row =>
    row.baseBranch = baseBranch && row.seqEpoch = fromEpoch && row.mergeSeq ≤ upTo).map fun row =>
      { row with seqEpoch := toEpoch }

/-- The commits of an epoch, each with its pull request. -/
def sequencePairs (rows : MergeSequence) (seqEpoch : Nat) : List (Text × Option Nat) :=
  (rows.rows.filter fun row => row.baseBranch = baseBranch && row.seqEpoch = seqEpoch).map fun row =>
    (row.commitSha, row.pullRequestNumber)

def listChangedCommitsBetweenEpochs (rows : MergeSequence) (oldEpoch newEpoch : Nat) : List Text :=
  let old := sequencePairs baseBranch rows oldEpoch
  let new := sequencePairs baseBranch rows newEpoch
  ((old.filter fun pair => !new.contains pair) ++ new.filter fun pair => !old.contains pair).map
    fun pair => pair.1.map Char.toLower

/-- `assignMergeNumbers`, as far as the pull request goes: a number that is there is not changed. -/
def withMergeNumber (assignments : List (Nat × Nat)) (row : MergeSequenceRow) : MergeSequenceRow :=
  match assignments.find? fun assignment => assignment.1 = row.mergeSeq with
  | none => row
  | some (_, prNumber) =>
      if row.baseBranch = baseBranch ∧ row.seqEpoch = seqEpoch ∧
          (row.pullRequestNumber = none ∨ row.pullRequestNumber = some prNumber) then
        { row with pullRequestNumber := some prNumber }
      else row

theorem key_withMergeNumber (assignments : List (Nat × Nat)) (row : MergeSequenceRow) :
    (withMergeNumber baseBranch seqEpoch assignments row).key = row.key := by
  unfold withMergeNumber
  split
  · rfl
  · split <;> rfl

end Write

/-- The commits of the texts that some pull request lists: `requeueChainChangedCommitLinks` asks for
these. -/
def chainChanged (links : LinkTable) (texts : List Text) : List Sha :=
  (normalizeShas texts).filter fun sha =>
    links.rows.any fun link => link.evidence = .source && link.commitSha = sha

/-- `pull_request_commit_link_pr_chk`, of an integer column -/
def PrChk (prNumber : Nat) : Prop := 0 < prNumber ∧ prNumber ≤ 2147483647

instance (prNumber : Nat) : Decidable (PrChk prNumber) := inferInstanceAs (Decidable (_ ∧ _))

/-- A transaction that writes one of the tables. -/
inductive LinkChange
  | adopt (input : LinkObservationInput)
  | assign (baseBranch : Text) (entries : List SequenceEntry)
  | reassign (baseBranch : Text) (baseSeq : Nat) (entries : List SequenceEntry)
  | updateBranches (sequenceBranches : List Text)
  | assignMergeNumbers (baseBranch : Text) (seqEpoch : Nat) (assignments : List (Nat × Nat))

namespace LinkTables

def withMergeNumbers (tables : LinkTables) (baseBranch : Text) (seqEpoch : Nat)
    (assignments : List (Nat × Nat)) : LinkTables :=
  { tables with
    mergeSequence := tables.mergeSequence.update (withMergeNumber baseBranch seqEpoch assignments)
      (key_withMergeNumber baseBranch seqEpoch assignments) }

/-- The tables after the transaction, and the commits that it asks for. -/
def change (tables : LinkTables) : LinkChange → Option (LinkTables × List Sha)
  | .adopt input =>
      if PrChk input.prNumber then
        let call := adoptLinkObservation tables.store input
        some ({ tables with store := call.2 }, call.1.affected)
      else none
  | .assign baseBranch entries =>
      (upsertMergeSequences baseBranch (tables.seqEpoch baseBranch) tables.mergeSequence entries).map
        fun rows => ({ tables with mergeSequence := rows },
          chainChanged tables.store.links (entries.map SequenceEntry.commitSha))
  | .reassign baseBranch baseSeq entries =>
      let oldEpoch := tables.seqEpoch baseBranch
      let newEpoch := oldEpoch + 1
      let copied := copySequencesUpTo baseBranch oldEpoch newEpoch baseSeq tables.mergeSequence
      (upsertMergeSequences baseBranch newEpoch copied entries).map fun rows =>
        ({ tables with
            mergeSequence := rows
            seqEpoch := Function.update tables.seqEpoch baseBranch newEpoch },
          chainChanged tables.store.links
            (listChangedCommitsBetweenEpochs baseBranch rows oldEpoch newEpoch))
  | .updateBranches sequenceBranches =>
      some ({ tables with sequenceBranches := sequenceBranches }, [])
  | .assignMergeNumbers baseBranch seqEpoch assignments =>
      some (tables.withMergeNumbers baseBranch seqEpoch assignments, [])

end LinkTables

/-! ### What the view depends on -/

/-- The commit is on the present chain of a tracked branch, and came there with this pull request. -/
def Landed (tables : LinkTables) (sha : Sha) (pullRequest : Option Nat) : Prop :=
  ∃ row ∈ tables.mergeSequence.rows,
    row.baseBranch ∈ tables.sequenceBranches ∧ row.seqEpoch = tables.seqEpoch row.baseBranch ∧
      row.commitSha = sha.text ∧ row.pullRequestNumber = pullRequest

/-- The commit belongs to the pull request on this evidence. -/
def Counts (tables : LinkTables) (sha : Sha) (prNumber : Nat) (evidence : LinkEvidence) : Prop :=
  Linked tables.store.links prNumber sha evidence ∧
    (evidence = .merge ∨ (∀ pullRequest, ¬ Landed tables sha pullRequest) ∨
      Landed tables sha (some prNumber))

variable {link : PullRequestCommitLinkRow}

section View

variable {tables tables' : LinkTables} {sha : Sha} {prNumber : Nat}

theorem landed_iff {pullRequest : Option Nat} : Landed tables sha pullRequest ↔
    ∃ row ∈ chainRowsOfLink tables sha, row.pullRequestNumber = pullRequest := by
  simp only [Landed, chainRowsOfLink, List.mem_filter, Bool.and_eq_true, List.contains_iff_mem,
    decide_eq_true_eq]
  constructor
  · rintro ⟨row, inside, tracked, present, own, is⟩
    exact ⟨row, ⟨inside, ⟨tracked, present⟩, own⟩, is⟩
  · rintro ⟨row, ⟨inside, ⟨tracked, present⟩, own⟩, is⟩
    exact ⟨row, inside, tracked, present, own, is⟩

theorem effective_iff :
    effective tables link = true ↔
    link.evidence = .merge ∨ (∀ pullRequest, ¬ Landed tables link.commitSha pullRequest) ∨
      Landed tables link.commitSha (some link.prNumber) := by
  have nowhere : (chainRowsOfLink tables link.commitSha).isEmpty = true ↔
      ∀ pullRequest, ¬ Landed tables link.commitSha pullRequest := by
    simp only [landed_iff, List.isEmpty_iff, List.eq_nil_iff_forall_not_mem]
    constructor
    · rintro empty pullRequest ⟨row, inside, _⟩
      exact empty row inside
    · intro none row inside
      exact none _ ⟨row, inside, rfl⟩
  simp only [effective, Bool.or_eq_true, decide_eq_true_eq, nowhere, List.any_eq_true, landed_iff,
    or_assoc]

theorem mem_effectiveLinks :
    link ∈ effectiveLinks tables sha ↔ link ∈ tables.store.links.rows ∧ link.commitSha = sha ∧
      Counts tables sha link.prNumber link.evidence := by
  simp only [effectiveLinks, List.mem_filter, Bool.and_eq_true, decide_eq_true_eq, effective_iff]
  constructor
  · rintro ⟨inside, rfl, counted⟩
    exact ⟨inside, rfl, ⟨link, inside, rfl⟩, counted⟩
  · rintro ⟨inside, rfl, _, counted⟩
    exact ⟨inside, rfl, counted⟩

-- The rows that count, by the pull request and the evidence.
theorem counts_iff {evidence : LinkEvidence} : Counts tables sha prNumber evidence ↔
    ∃ link ∈ effectiveLinks tables sha, link.prNumber = prNumber ∧ link.evidence = evidence := by
  constructor
  · rintro ⟨⟨link, inside, is⟩, counted⟩
    cases is
    exact ⟨link, mem_effectiveLinks.mpr ⟨inside, rfl, ⟨link, inside, rfl⟩, counted⟩, rfl, rfl⟩
  · rintro ⟨link, inside, rfl, rfl⟩
    exact (mem_effectiveLinks.mp inside).2.2

theorem mem_listLinkedPullRequestNumbers : prNumber ∈ listLinkedPullRequestNumbers tables sha ↔
    ∃ evidence, Counts tables sha prNumber evidence := by
  simp only [listLinkedPullRequestNumbers, List.mem_insertionSort, List.mem_dedup, List.mem_map,
    counts_iff]
  constructor
  · rintro ⟨link, inside, is⟩
    exact ⟨link.evidence, link, inside, is, rfl⟩
  · rintro ⟨_, link, inside, is, _⟩
    exact ⟨link, inside, is⟩

theorem nodup_listLinkedPullRequestNumbers : (listLinkedPullRequestNumbers tables sha).Nodup :=
  (List.perm_insertionSort _ _).nodup_iff.mpr (List.nodup_dedup _)

theorem sorted_listLinkedPullRequestNumbers :
    (listLinkedPullRequestNumbers tables sha).Pairwise (· ≤ ·) :=
  List.pairwise_insertionSort _ _

theorem verifiedLinks_iff : verifiedLinks tables sha = true ↔
    ∀ prNumber evidence, Counts tables sha prNumber evidence →
      verifiedPullRequest tables prNumber = true := by
  simp only [verifiedLinks, List.all_eq_true]
  constructor
  · intro all prNumber evidence counted
    obtain ⟨link, inside, rfl, _⟩ := counts_iff.mp counted
    exact all link inside
  · intro all link inside
    exact all _ _ (counts_iff.mpr ⟨link, inside, rfl, rfl⟩)

/-- The numbers are those of the links that count. -/
theorem listLinkedPullRequestNumbers_congr
    (same : ∀ prNumber evidence,
      Counts tables' sha prNumber evidence ↔ Counts tables sha prNumber evidence) :
    listLinkedPullRequestNumbers tables' sha = listLinkedPullRequestNumbers tables sha := by
  refine List.Perm.eq_of_pairwise (fun _ _ _ _ => Nat.le_antisymm) sorted_listLinkedPullRequestNumbers
    sorted_listLinkedPullRequestNumbers ?_
  refine (List.perm_ext_iff_of_nodup nodup_listLinkedPullRequestNumbers
    nodup_listLinkedPullRequestNumbers).mpr fun prNumber => ?_
  simp only [mem_listLinkedPullRequestNumbers, same]

theorem currentLinkView_congr
    (same : ∀ prNumber evidence,
      Counts tables' sha prNumber evidence ↔ Counts tables sha prNumber evidence)
    (verified : verifiedLinks tables' sha = verifiedLinks tables sha) :
    currentLinkView tables' sha = currentLinkView tables sha := by
  rw [currentLinkView, currentLinkView, listLinkedPullRequestNumbers_congr same, verified]

-- The chain matters only where some pull request lists the commit.
theorem counts_congr (store : tables'.store = tables.store)
    (landed : (∃ prNumber, Linked tables.store.links prNumber sha .source) →
      ∀ pullRequest, Landed tables' sha pullRequest ↔ Landed tables sha pullRequest)
    (evidence : LinkEvidence) :
    Counts tables' sha prNumber evidence ↔ Counts tables sha prNumber evidence := by
  simp only [Counts, store]
  refine and_congr_right fun linked => ?_
  cases evidence with
  | merge => simp
  | source => simp only [landed ⟨prNumber, linked⟩]

-- Who has been observed does not change with the chain.
theorem currentLinkView_congr_of_landed (store : tables'.store = tables.store)
    (landed : (∃ prNumber, Linked tables.store.links prNumber sha .source) →
      ∀ pullRequest, Landed tables' sha pullRequest ↔ Landed tables sha pullRequest) :
    currentLinkView tables' sha = currentLinkView tables sha := by
  have same : ∀ prNumber evidence,
      Counts tables' sha prNumber evidence ↔ Counts tables sha prNumber evidence :=
    fun _ evidence => counts_congr store landed evidence
  refine currentLinkView_congr same (Bool.eq_iff_iff.mpr ?_)
  simp only [verifiedLinks_iff, same, verifiedPullRequest, store]

end View

end PrSearch.Links
