import PrSearch.Lib.Automaton
import PrSearch.Lib.Rows
import PrSearch.Query.Ast

/-! # Refreshing the releases

The releases of a repository are the tags that its mirror names. A refresh syncs the mirror, lists
the tags and reads the epochs, and only then takes the lock; in one transaction it writes a row for
each tag and deletes the other rows. A refresh that finds the lock taken ends at once. Between the
listing and the lock anything may happen, other refreshes included.
-/
namespace PrSearch.Release

open Query (Text)
open Rows

structure MirrorTag where
  name : Text
  createdAt : Text
  commitSha : Text
  deriving DecidableEq, Repr

/-- `refs/tags` at one moment: git has no two tags of one name. -/
structure TagSnapshot where
  tags : List MirrorTag
  distinct : Keyed MirrorTag.name tags

structure ReleaseSummary where
  tagName : Text
  draft : Bool
  publishedAt : Option Text
  deriving DecidableEq, Repr

inductive ReleaseSource
  | gitTag
  | githubRelease
  | ciDeployment
  deriving DecidableEq, Repr

structure ReleaseRow where
  tagName : Text
  commitSha : Text
  baseBranch : Option Text
  seqEpoch : Option Nat
  mergeSeq : Option Nat
  releasedAt : Text
  source : ReleaseSource
  deriving DecidableEq, Repr

abbrev ReleaseTable := Table ReleaseRow.tagName

/-- The times of the releases that are published. The last one of a tag counts. -/
def publishedAtByTag (releases : List ReleaseSummary) (tagName : Text) : Option Text :=
  (releases.reverse.find? fun release =>
    !release.draft && release.publishedAt.isSome && release.tagName = tagName).bind
      ReleaseSummary.publishedAt

/-! ### The numbers of the commits -/

structure Space where
  branch : Text
  epoch : Nat
  deriving DecidableEq, Repr

/-- `merge_sequence`: the number of a commit in an epoch of a branch. -/
abbrev Chain := Space → Text → Option Nat

/-- The first space in the order of registration that has the commit. -/
def resolve (findSeqByCommit : Chain) (spaces : List Space) (commitSha : Text) :
    Option (Space × Nat) :=
  spaces.findSome? fun space => (findSeqByCommit space commitSha).map fun seq => (space, seq)

/-! ### One refresh -/

/-- What a refresh has listed. `turn` counts the listings of the repository. -/
structure Listing where
  turn : Nat
  snapshot : TagSnapshot
  releases : List ReleaseSummary

/-- What a row says about its tag. -/
structure TagFacts where
  tagName : Text
  commitSha : Text
  releasedAt : Text
  source : ReleaseSource
  deriving DecidableEq, Repr

namespace Listing

variable (listing : Listing)

def factsOf (tag : MirrorTag) : TagFacts where
  tagName := tag.name
  commitSha := tag.commitSha.map Char.toLower
  releasedAt := (publishedAtByTag listing.releases tag.name).getD tag.createdAt
  source := if (publishedAtByTag listing.releases tag.name).isSome then .githubRelease else .gitTag

def facts : List TagFacts := listing.snapshot.tags.map listing.factsOf

def releaseRow (findSeqByCommit : Chain) (spaces : List Space) (tag : MirrorTag) : ReleaseRow where
  tagName := tag.name
  commitSha := tag.commitSha.map Char.toLower
  baseBranch := (resolve findSeqByCommit spaces tag.commitSha).map fun resolved => resolved.1.branch
  seqEpoch := (resolve findSeqByCommit spaces tag.commitSha).map fun resolved => resolved.1.epoch
  mergeSeq := (resolve findSeqByCommit spaces tag.commitSha).map Prod.snd
  releasedAt := (publishedAtByTag listing.releases tag.name).getD tag.createdAt
  source := if (publishedAtByTag listing.releases tag.name).isSome then .githubRelease else .gitTag

/-- A row whose tag has not been listed. A deployment is no tag. -/
def isStale (row : ReleaseRow) : Bool :=
  row.source ≠ .ciDeployment && !(listing.snapshot.tags.map MirrorTag.name).contains row.tagName

end Listing

def ReleaseRow.facts (row : ReleaseRow) : TagFacts :=
  ⟨row.tagName, row.commitSha, row.releasedAt, row.source⟩

def deleteReleasesNotIn (table : ReleaseTable) (listing : Listing) : ReleaseTable :=
  table.delete listing.isStale

/-- Where a refresh is. The transaction holds what it has written back from the others. -/
inductive Stage
  | idle
  | listed (listing : Listing)
  | ready (listing : Listing) (spaces : List Space)
  | writing (listing : Listing) (spaces : List Space) (draft : ReleaseTable) (rest : List MirrorTag)
  | projecting

def Stage.isIdle : Stage → Bool
  | .idle => true
  | _ => false

def Stage.isWriting : Stage → Bool
  | .writing _ _ _ _ => true
  | _ => false

/-! ### Refreshes of one repository -/

/-- The mirror, the sequence and the releases of a repository, and the refreshes of it. A worker of
`R` makes one refresh after another. -/
structure Refreshes (R : Type*) where
  mirror : TagSnapshot
  spaces : List Space
  chain : Chain
  releases : ReleaseTable
  lock : Option R
  stage : R → Stage
  listings : Nat
  /-- What was committed, in this order. -/
  committed : List Listing
  /-- What was listed by those that found the lock taken. -/
  skipped : List Listing

inductive RefreshMove
  | list (releases : List ReleaseSummary)
  | epochs
  | lock
  | upsert
  | commit
  | finish
  | fail

inductive Action (R : Type*)
  | fetch (mirror : TagSnapshot)
  | sequence (spaces : List Space) (chain : Chain)
  | refresh (r : R) (move : RefreshMove)

variable {R : Type*} [DecidableEq R]

namespace Refreshes

def goes (s : Refreshes R) (r : R) (stage : Stage) : Refreshes R :=
  { s with stage := Function.update s.stage r stage }

/-- A transaction that ends gives the lock back. -/
def unlock (s : Refreshes R) (r : R) : Refreshes R :=
  if s.lock = some r then { s with lock := none } else s

/-- `refreshReleases`, one call after another. -/
def refreshStep (s : Refreshes R) (r : R) : RefreshMove → Option (Refreshes R)
  | .list releases =>
      match s.stage r with
      | .idle =>
          some { s.goes r (.listed ⟨s.listings, s.mirror, releases⟩) with
            listings := s.listings + 1 }
      | _ => none
  | .epochs =>
      match s.stage r with
      | .listed listing => some (s.goes r (.ready listing s.spaces))
      | _ => none
  | .lock =>
      match s.stage r with
      | .ready listing spaces =>
          match s.lock with
          | none =>
              some { s.goes r (.writing listing spaces s.releases listing.snapshot.tags) with
                lock := some r }
          | some _ => some { s.goes r .idle with skipped := s.skipped ++ [listing] }
      | _ => none
  | .upsert =>
      match s.stage r with
      | .writing listing spaces draft (tag :: rest) =>
          some (s.goes r
            (.writing listing spaces (draft.put (listing.releaseRow s.chain spaces tag)) rest))
      | _ => none
  | .commit =>
      match s.stage r with
      | .writing listing _ draft [] =>
          some { (s.goes r .projecting).unlock r with
            releases := deleteReleasesNotIn draft listing
            committed := s.committed ++ [listing] }
      | _ => none
  | .finish =>
      match s.stage r with
      | .projecting => some (s.goes r .idle)
      | _ => none
  | .fail =>
      match s.stage r with
      | .idle | .projecting => none
      | .listed _ | .ready _ _ | .writing _ _ _ _ => some ((s.goes r .idle).unlock r)

def step (s : Refreshes R) : Action R → Option (Refreshes R)
  | .fetch mirror => some { s with mirror }
  | .sequence spaces chain => some { s with spaces, chain }
  | .refresh r move => s.refreshStep r move

/-- No refresh has begun, and no release is known. -/
def start (mirror : TagSnapshot) (spaces : List Space) (chain : Chain) : Refreshes R where
  mirror := mirror
  spaces := spaces
  chain := chain
  releases := .empty
  lock := none
  stage _ := .idle
  listings := 0
  committed := []
  skipped := []

end Refreshes

/-- What a refresh can do, and from which stage. -/
inductive Turn (s : Refreshes R) (r : R) : RefreshMove → Refreshes R → Prop
  | list {releases : List ReleaseSummary} (is : s.stage r = .idle) :
      Turn s r (.list releases) { s.goes r (.listed ⟨s.listings, s.mirror, releases⟩) with
        listings := s.listings + 1 }
  | epochs {listing : Listing} (is : s.stage r = .listed listing) :
      Turn s r .epochs (s.goes r (.ready listing s.spaces))
  | lock {listing : Listing} {spaces : List Space} (is : s.stage r = .ready listing spaces)
      (free : s.lock = none) :
      Turn s r .lock { s.goes r (.writing listing spaces s.releases listing.snapshot.tags) with
        lock := some r }
  | locked {listing : Listing} {spaces : List Space} {holder : R}
      (is : s.stage r = .ready listing spaces) (held : s.lock = some holder) :
      Turn s r .lock { s.goes r .idle with skipped := s.skipped ++ [listing] }
  | upsert {listing : Listing} {spaces : List Space} {draft : ReleaseTable} {tag : MirrorTag}
      {rest : List MirrorTag} (is : s.stage r = .writing listing spaces draft (tag :: rest)) :
      Turn s r .upsert (s.goes r
        (.writing listing spaces (draft.put (listing.releaseRow s.chain spaces tag)) rest))
  | commit {listing : Listing} {spaces : List Space} {draft : ReleaseTable}
      (is : s.stage r = .writing listing spaces draft []) :
      Turn s r .commit { (s.goes r .projecting).unlock r with
        releases := deleteReleasesNotIn draft listing
        committed := s.committed ++ [listing] }
  | finish (is : s.stage r = .projecting) : Turn s r .finish (s.goes r .idle)
  | fail (busy : (s.stage r).isIdle = false) : Turn s r .fail ((s.goes r .idle).unlock r)

theorem turn_of_refreshStep {s next : Refreshes R} {r : R} {move : RefreshMove}
    (stepped : s.refreshStep r move = some next) : Turn s r move next := by
  cases move with
  | list releases =>
    cases is : s.stage r <;> simp only [Refreshes.refreshStep, is, reduceCtorEq] at stepped
    exact Option.some.inj stepped ▸ .list is
  | epochs =>
    cases is : s.stage r <;> simp only [Refreshes.refreshStep, is, reduceCtorEq] at stepped
    exact Option.some.inj stepped ▸ .epochs is
  | lock =>
    cases is : s.stage r <;> simp only [Refreshes.refreshStep, is, reduceCtorEq] at stepped
    cases held : s.lock <;> simp only [held] at stepped
    · exact Option.some.inj stepped ▸ .lock is held
    · exact Option.some.inj stepped ▸ .locked is held
  | upsert =>
    cases is : s.stage r with
    | writing listing spaces draft rest =>
      cases rest <;> simp only [Refreshes.refreshStep, is, reduceCtorEq] at stepped
      exact Option.some.inj stepped ▸ .upsert is
    | _ => simp only [Refreshes.refreshStep, is, reduceCtorEq] at stepped
  | commit =>
    cases is : s.stage r with
    | writing listing spaces draft rest =>
      cases rest <;> simp only [Refreshes.refreshStep, is, reduceCtorEq] at stepped
      exact Option.some.inj stepped ▸ .commit is
    | _ => simp only [Refreshes.refreshStep, is, reduceCtorEq] at stepped
  | finish =>
    cases is : s.stage r <;> simp only [Refreshes.refreshStep, is, reduceCtorEq] at stepped
    exact Option.some.inj stepped ▸ .finish is
  | fail =>
    cases is : s.stage r <;> simp only [Refreshes.refreshStep, is, reduceCtorEq] at stepped
    all_goals exact Option.some.inj stepped ▸ .fail (by rw [is]; rfl)

def automaton : Automaton (Refreshes R) (Action R) := ⟨Refreshes.step⟩

end PrSearch.Release
