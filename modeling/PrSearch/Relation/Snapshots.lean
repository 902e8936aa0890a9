import Mathlib.Data.List.Infix
import PrSearch.Lib.Rows
import PrSearch.Query.Tokenizer

/-! # The canonical rows

The relations of a repository are derived from its canonical rows: one for each pull request that is
known, with the document of the pull request, and one for each commit. A row is replaced when its
pull request changes. A commit never changes, but its patch-id may be found later than the commit,
and a patch-id that is known is kept. Rows are selected by an equation, in a fixed order and up to a
limit.
-/
namespace PrSearch.Relation

open Query (Text)
open Rows

/-- The fields of a pull request document that relations are derived from. -/
structure PullRequestDocument where
  title : Option Text := none
  body : Option Text := none
  baseBranch : Option Text := none
  headBranch : Option Text := none
  state : Option Text := none
  updatedAt : Option Text := none
  createdAt : Option Text := none
  indexedAt : Option Text := none
  deriving DecidableEq, Repr

structure PullRequestSnapshotRow where
  prNumber : Nat
  documentVersion : Nat := 0
  document : PullRequestDocument
  deriving DecidableEq, Repr

def isHex (c : Char) : Bool := ('0' ≤ c && c ≤ '9') || ('a' ≤ c && c ≤ 'f')

/-- The name of a commit: forty hexadecimal digits, in lower case. -/
structure Sha where
  text : Text
  length : text.length = 40
  hexadecimal : ∀ c ∈ text, isHex c = true
  deriving DecidableEq

structure CommitSnapshotRow where
  commitSha : Sha
  message : Text
  committedAt : Int
  patchId : Option Text
  deriving DecidableEq

/-- A field that is absent is the empty text. -/
def field (value : Option Text) : Text := value.getD []

/-! ### The rows of a repository -/

/-- The rows of the pull requests and those of the commits. -/
structure Snapshots where
  pullRequests : List PullRequestSnapshotRow
  commits : List CommitSnapshotRow
  pullRequestKey : Keyed PullRequestSnapshotRow.prNumber pullRequests
  commitKey : Keyed CommitSnapshotRow.commitSha commits

namespace Snapshots

def empty : Snapshots := ⟨[], [], List.nodup_nil, List.nodup_nil⟩

variable (snapshots : Snapshots)

def findPullRequestSnapshot (prNumber : Nat) : Option PullRequestSnapshotRow :=
  snapshots.pullRequests.find? fun row => row.prNumber = prNumber

def findCommitSnapshot (commitSha : Sha) : Option CommitSnapshotRow :=
  snapshots.commits.find? fun row => row.commitSha = commitSha

def byNumber (left right : PullRequestSnapshotRow) : Prop := left.prNumber ≤ right.prNumber

instance : DecidableRel byNumber := fun left right => Nat.decLe left.prNumber right.prNumber

def findPullRequestsByTitle (title : Text) (limit : Nat) : List PullRequestSnapshotRow :=
  select byNumber snapshots.pullRequests (fun row => row.document.title = some title) limit

/-- An open pull request whose head is the branch. -/
def isOpenHead (headBranch : Text) (row : PullRequestSnapshotRow) : Bool :=
  row.document.headBranch = some headBranch && row.document.state = some "open".toList

def findOpenPullRequestsByHeadBranch (headBranch : Text) (limit : Nat) :
    List PullRequestSnapshotRow :=
  select byNumber snapshots.pullRequests (isOpenHead headBranch) limit

def findPullRequestsByBaseBranch (baseBranch : Text) (limit : Nat) : List PullRequestSnapshotRow :=
  select byNumber snapshots.pullRequests (fun row => row.document.baseBranch = some baseBranch)
    limit

/-- `ORDER BY committed_at DESC, commit_sha ASC` -/
def newestFirst (left right : CommitSnapshotRow) : Prop :=
  right.committedAt < left.committedAt ∨
    (left.committedAt = right.committedAt ∧ ¬ right.commitSha.text < left.commitSha.text)

instance : DecidableRel newestFirst := fun _ _ =>
  inferInstanceAs (Decidable (_ ∨ (_ ∧ ¬ _)))

/-- The order of two commits: by their times, and by their names where these are the same. -/
def isLater (a b : CommitSnapshotRow) : Bool :=
  if a.committedAt ≠ b.committedAt then b.committedAt < a.committedAt
  else b.commitSha.text < a.commitSha.text

def samePatch (patchId : Text) (selfSha : Sha) (row : CommitSnapshotRow) : Bool :=
  row.patchId = some patchId && row.commitSha ≠ selfSha

/-- `findCommitsByPatchId` without a bound -/
def findCommitsByPatchId (patchId : Text) (selfSha : Sha) (limit : Nat) : List CommitSnapshotRow :=
  select newestFirst snapshots.commits (samePatch patchId selfSha) limit

/-- `findCommitsByPatchId` with the bound `earlier` at the commit itself -/
def findEarlierCommitsByPatchId (patchId : Text) (self : CommitSnapshotRow) (limit : Nat) :
    List CommitSnapshotRow :=
  select newestFirst snapshots.commits
    (fun row => samePatch patchId self.commitSha row && isLater self row) limit

/-- `split_part(message, E'\n', 1)` -/
def firstLine (message : Text) : Text := message.takeWhile fun c => c != '\n'

def findCommitsBySubject (subject : Text) (limit : Nat) : List CommitSnapshotRow :=
  select newestFirst snapshots.commits (fun row => firstLine row.message = subject) limit

-- `lower`: no other letter becomes a hexadecimal digit.
def lower (text : Text) : Text := text.map Char.toLower

def bySha (left right : CommitSnapshotRow) : Prop := ¬ right.commitSha.text < left.commitSha.text

instance : DecidableRel bySha := fun _ _ => inferInstanceAs (Decidable (¬ _))

/-- `position(sha in lower(message)) > 0` -/
def mentions (sha : Sha) (row : CommitSnapshotRow) : Bool :=
  row.commitSha ≠ sha && decide (sha.text <:+: lower row.message)

theorem mentions_iff {sha : Sha} {row : CommitSnapshotRow} :
    mentions sha row = true ↔ row.commitSha ≠ sha ∧ sha.text <:+: lower row.message := by
  simp [mentions]

def findCommitsRevertingSha (sha : Sha) (limit : Nat) : List CommitSnapshotRow :=
  select bySha snapshots.commits (mentions sha) limit

/-! ### Writing rows -/

-- An older version does not replace a newer one.
def replacePullRequest (stored row : PullRequestSnapshotRow) : PullRequestSnapshotRow :=
  if stored.documentVersion ≤ row.documentVersion then row else stored

-- A patch-id that has been found is not lost.
def replaceCommit (stored row : CommitSnapshotRow) : CommitSnapshotRow :=
  { row with patchId := row.patchId <|> stored.patchId }

def upsertPullRequestSnapshot (row : PullRequestSnapshotRow) : Snapshots where
  pullRequests := upsert PullRequestSnapshotRow.prNumber replacePullRequest row
    snapshots.pullRequests
  commits := snapshots.commits
  pullRequestKey := snapshots.pullRequestKey.upsert fun stored same => by
    unfold replacePullRequest
    split
    next => rfl
    next => exact same
  commitKey := snapshots.commitKey

def upsertCommitSnapshot (row : CommitSnapshotRow) : Snapshots where
  pullRequests := snapshots.pullRequests
  commits := upsert CommitSnapshotRow.commitSha replaceCommit row snapshots.commits
  pullRequestKey := snapshots.pullRequestKey
  commitKey := snapshots.commitKey.upsert fun _ _ => rfl

end Snapshots

end PrSearch.Relation
