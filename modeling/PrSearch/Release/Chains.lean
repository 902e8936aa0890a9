import Mathlib.Data.Char
import Mathlib.Data.List.Lex
import Mathlib.Data.List.Pairwise
import PrSearch.Release.Refresh

/-! # Releases on the chains of the branches

The tables that tell which releases lie on a branch, and the statements that ask them. A branch has a
current epoch, and its chain are the commits that have a sequence number in this epoch. What a release
row says about its branch may be old; every answer goes through the chains.
-/
namespace PrSearch.Release

open Query (Text)
open Rows

/-- A row of `merge_sequence`. -/
structure SequenceRow where
  branch : Text
  epoch : Nat
  mergeSeq : Nat
  commitSha : Text
  pullRequestNumber : Option Int
  deriving DecidableEq, Repr

/-- The primary key of `merge_sequence`, and the unique index of its commits. -/
def SequenceRow.Distinct (a b : SequenceRow) : Prop :=
  a.branch = b.branch → a.epoch = b.epoch → a.mergeSeq ≠ b.mergeSeq ∧ a.commitSha ≠ b.commitSha

instance (a b : SequenceRow) : Decidable (a.Distinct b) :=
  inferInstanceAs (Decidable (_ → _ → _))

/-- How the database orders names and reads times. -/
structure Collation where
  le : Text → Text → Bool
  total : ∀ a b, le a b = true ∨ le b a = true
  trans : ∀ a b c, le a b = true → le b c = true → le a c = true
  antisymm : ∀ a b, le a b = true → le b a = true → a = b
  instant : Text → Int

/-- The collation `C`: names in the order of their characters. -/
def Collation.byCharacter (instant : Text → Int) : Collation where
  le a b := decide (a ≤ b)
  total a b := by simpa using le_total a b
  trans a b c := by simpa using fun before after => le_trans before after
  antisymm a b := by simpa using fun before after => le_antisymm before after
  instant := instant

/-- The tables of one repository. -/
structure Database where
  spaces : Table Space.branch
  sequence : List SequenceRow
  releases : ReleaseTable
  distinct : sequence.Pairwise SequenceRow.Distinct

namespace Database

variable (db : Database)

def findSequenceSpace (branch : Text) : Option Space :=
  db.spaces.rows.find? fun space => space.branch = branch

/-- The row of a commit in an epoch of a branch. -/
def rowOf (branch : Text) (epoch : Nat) (commitSha : Text) : Option SequenceRow :=
  db.sequence.find? fun row =>
    row.branch = branch ∧ row.epoch = epoch ∧ row.commitSha = commitSha

/-- The sequence number of a commit in an epoch of a branch. -/
def seqOf (branch : Text) (epoch : Nat) (commitSha : Text) : Option Nat :=
  (db.rowOf branch epoch commitSha).map SequenceRow.mergeSeq

/-- The join of the releases with the chain of an epoch. -/
def onChain (branch : Text) (epoch : Nat) : List ReleaseRow :=
  db.releases.rows.filterMap fun release =>
    (db.seqOf branch epoch release.commitSha).map fun mergeSeq =>
      { release with baseBranch := some branch, seqEpoch := some epoch, mergeSeq := some mergeSeq }

def hasAnyRelease : Bool := !db.releases.rows.isEmpty

/-- `ORDER BY released_at, tag_name` -/
def byTime (collation : Collation) (a b : ReleaseRow) : Prop :=
  collation.instant a.releasedAt < collation.instant b.releasedAt ∨
    collation.instant a.releasedAt = collation.instant b.releasedAt ∧
      collation.le a.tagName b.tagName = true

instance (collation : Collation) : DecidableRel (byTime collation) :=
  fun _ _ => inferInstanceAs (Decidable (_ ∨ _ ∧ _))

def findContainingReleases (collation : Collation) (branch : Text) (epoch mergeSeq : Nat) :
    List ReleaseRow :=
  ((db.onChain branch epoch).filter fun release => release.mergeSeq.any (mergeSeq ≤ ·)).insertionSort
    (byTime collation)

/-- The release with the greatest number; which one of several is not said. -/
def findLatestRelease (branch : Text) (epoch : Nat) : Option ReleaseRow :=
  (select (fun a b : ReleaseRow => b.mergeSeq.getD 0 ≤ a.mergeSeq.getD 0) (db.onChain branch epoch)
    (fun _ => true) 1).head?

def findLatestReleaseSeq (branch : Text) (epoch : Nat) : Option Nat :=
  (db.findLatestRelease branch epoch).bind ReleaseRow.mergeSeq

/-- `count(DISTINCT pull_request_number)` over the rows of an epoch within `(above, upto]`. -/
def countPullRequests (branch : Text) (epoch : Nat) (within : Nat → Bool) : Nat :=
  ((db.sequence.filter fun row =>
    row.branch = branch ∧ row.epoch = epoch ∧ within row.mergeSeq).filterMap
      SequenceRow.pullRequestNumber).dedup.length

def countPullRequestsAbove (branch : Text) (epoch aboveSeqExclusive : Nat) : Nat :=
  db.countPullRequests branch epoch fun mergeSeq => aboveSeqExclusive < mergeSeq

def findByPullRequest (pullRequestNumber : Int) : List SequenceRow :=
  db.sequence.filter fun row => row.pullRequestNumber = some pullRequestNumber

def findByCommitSha (commitSha : Text) : List SequenceRow :=
  db.sequence.filter fun row => row.commitSha = commitSha

end Database

/-! ### What the statements answer -/

section

variable {db : Database} {branch commitSha : Text} {epoch : Nat}

theorem findSequenceSpace_eq_some {space : Space} :
    db.findSequenceSpace branch = some space ↔ space ∈ db.spaces.rows ∧ space.branch = branch :=
  db.spaces.keyed.find?_eq_some

/-- A release with the place of its commit on the chain. -/
def ReleaseRow.placed (release : ReleaseRow) (branch : Text) (epoch mergeSeq : Nat) : ReleaseRow :=
  { release with baseBranch := some branch, seqEpoch := some epoch, mergeSeq := some mergeSeq }

theorem mem_onChain {row : ReleaseRow} :
    row ∈ db.onChain branch epoch ↔ ∃ release ∈ db.releases.rows, ∃ mergeSeq,
      db.seqOf branch epoch release.commitSha = some mergeSeq ∧
        row = release.placed branch epoch mergeSeq := by
  unfold Database.onChain
  rw [List.mem_filterMap]
  constructor
  · rintro ⟨release, member, found⟩
    obtain ⟨mergeSeq, seq, rfl⟩ := Option.map_eq_some_iff.mp found
    exact ⟨release, member, mergeSeq, seq, rfl⟩
  · rintro ⟨release, member, mergeSeq, seq, rfl⟩
    exact ⟨release, member, Option.map_eq_some_iff.mpr ⟨mergeSeq, seq, rfl⟩⟩

/-- The containing releases are those on the chain from a number on. -/
theorem mem_findContainingReleases {collation : Collation} {mergeSeq : Nat} {row : ReleaseRow} :
    row ∈ db.findContainingReleases collation branch epoch mergeSeq ↔
      ∃ release ∈ db.releases.rows, ∃ at', db.seqOf branch epoch release.commitSha = some at' ∧
        mergeSeq ≤ at' ∧ row = release.placed branch epoch at' := by
  unfold Database.findContainingReleases
  rw [List.mem_insertionSort, List.mem_filter, mem_onChain]
  constructor
  · rintro ⟨⟨release, member, at', seq, rfl⟩, above⟩
    exact ⟨release, member, at', seq, by simpa [ReleaseRow.placed] using above, rfl⟩
  · rintro ⟨release, member, at', seq, above, rfl⟩
    exact ⟨⟨release, member, at', seq, rfl⟩, by simpa [ReleaseRow.placed] using above⟩

end

end PrSearch.Release
