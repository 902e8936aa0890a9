import PrSearch.Relation.Stacks
import PrSearch.Relation.Text

/-! # The edges of a source

A source is a pull request or a commit. Its reverts and cherry-picks are planned from its text and
the canonical rows. Its stacks are planned from the branches, and merged with the rows of the stacks
that it has had: an edge that does not hold any longer stays, detached. Nothing is written here.
-/
namespace PrSearch.Relation

open Query (Text)
open Rows

inductive LinkSource
  | pullRequest (prNumber : Nat)
  | commit (sha : Sha)
  deriving DecidableEq

inductive LinkType
  | reverts
  | cherryPicks
  | stacksOn
  deriving DecidableEq, Repr

inductive Confidence
  | exact_
  | derived
  | heuristic
  deriving DecidableEq, Repr

/-- The time of an edge: the text of a document, or the time of a commit. -/
inductive LinkTime
  | text (value : Text)
  | instant (value : Int)
  deriving DecidableEq, Repr

structure DerivedLinkDoc where
  linkType : LinkType
  source : LinkSource
  target : LinkSource
  confidence : Confidence
  evidence : Text
  detached : Option Bool := none
  createdAt : LinkTime
  resolved : Bool
  deriving DecidableEq

/-- `derivedLinkId`: the digest of the type and the two ends. -/
structure LinkId where
  linkType : LinkType
  source : LinkSource
  target : LinkSource
  deriving DecidableEq

def DerivedLinkDoc.linkId (doc : DerivedLinkDoc) : LinkId := ⟨doc.linkType, doc.source, doc.target⟩

def revertCandidateLimit : Nat := 50

def cherryCandidateLimit : Nat := 5

/-! ### The table of the stacks -/

inductive StackOrigin
  | derived
  | imported
  deriving DecidableEq, Repr

structure StackRow where
  childPrNumber : Nat
  parentPrNumber : Nat
  evidence : Text
  edgeCreatedAt : Text
  detached : Bool
  origin : StackOrigin
  deriving DecidableEq, Repr

def StackRow.key (row : StackRow) : Nat × Nat := (row.childPrNumber, row.parentPrNumber)

/-- The row of an edge that holds. -/
def StackDesired.row (child : Nat) (desired : StackDesired) : StackRow :=
  ⟨child, desired.parentPrNumber, desired.evidence, desired.edgeCreatedAt, false, .derived⟩

def StackRow.detach (row : StackRow) : StackRow := { row with detached := true }

def byParent (left right : StackRow) : Prop := left.parentPrNumber ≤ right.parentPrNumber

instance : DecidableRel byParent := fun left right =>
  Nat.decLe left.parentPrNumber right.parentPrNumber

/-- An edge that holds is written anew, and one that does not hold any longer is detached. -/
def mergeStackRows (child : Nat) (existing : List StackRow) (desired : List StackDesired) :
    List StackRow :=
  (desired.map (StackDesired.row child) ++ (existing.filter fun row =>
    ∀ one ∈ desired, one.parentPrNumber ≠ row.parentPrNumber).map StackRow.detach).insertionSort
      byParent

abbrev StackTable := Table StackRow.key

def listStacksOfChild (table : StackTable) (child : Nat) : List StackRow :=
  (table.rows.filter fun row => row.childPrNumber = child).insertionSort byParent

def byChild (left right : StackRow) : Prop := left.childPrNumber ≤ right.childPrNumber

instance : DecidableRel byChild := fun left right =>
  Nat.decLe left.childPrNumber right.childPrNumber

instance : Std.Total byChild := ⟨fun left right => Nat.le_total left.childPrNumber right.childPrNumber⟩

instance : IsTrans StackRow byChild := ⟨fun _ _ _ => Nat.le_trans⟩

def listChildrenOf (table : StackTable) (parent limit : Nat) : List Nat :=
  (select byChild table.rows (fun row => row.parentPrNumber = parent) limit).map
    StackRow.childPrNumber

/-! ### Reverts -/

namespace Snapshots

variable (snapshots : Snapshots)

section Reverts

variable (source : LinkSource) (createdAt : LinkTime)

def revertDoc (evidence : Text) (confidence : Confidence) (resolved : Bool) (target : LinkSource) :
    DerivedLinkDoc where
  linkType := .reverts
  source := source
  target := target
  confidence := confidence
  evidence := evidence
  createdAt := createdAt
  resolved := resolved

/-- The edges of one expression: a trailer names its target, whether it is there or not; for a title
they are all that have it. -/
def revertDocsOf (entry : ExtractedRevert) : List DerivedLinkDoc :=
  match entry.target with
  | .commit sha =>
      [revertDoc source createdAt entry.evidence .exact_ (snapshots.findCommitSnapshot sha).isSome
        (.commit sha)]
  | .title title =>
      ((snapshots.findPullRequestsByTitle title revertCandidateLimit).map fun row =>
          LinkSource.pullRequest row.prNumber) ++
        ((snapshots.findCommitsBySubject title revertCandidateLimit).map fun row =>
          LinkSource.commit row.commitSha)
      |>.map (revertDoc source createdAt entry.evidence .heuristic true)

def planReverts (extracted : List ExtractedRevert) : List DerivedLinkDoc :=
  firsts DerivedLinkDoc.linkId <|
    (extracted.flatMap (snapshots.revertDocsOf source createdAt)).filter fun doc =>
      doc.target ≠ source

end Reverts

/-! ### Cherry-picks -/

def cherryDoc (self : CommitSnapshotRow) (evidence : Text) (confidence : Confidence)
    (resolved : Bool) (target : Sha) : DerivedLinkDoc where
  linkType := .cherryPicks
  source := .commit self.commitSha
  target := .commit target
  confidence := confidence
  evidence := evidence
  createdAt := .instant self.committedAt
  resolved := resolved

/-- The edges of the trailers. Without any, those to the earlier commits with the same patch. -/
def cherryDocsOf (self : CommitSnapshotRow) : List DerivedLinkDoc :=
  match extractCherryPicks self.message, self.patchId with
  | [], none => []
  | [], some patchId =>
      (snapshots.findEarlierCommitsByPatchId patchId self cherryCandidateLimit).map fun row =>
        cherryDoc self ("patch-id ".toList ++ patchId) .derived true row.commitSha
  | trailers, _ =>
      trailers.map fun trailer =>
        cherryDoc self trailer.evidence .exact_ (snapshots.findCommitSnapshot trailer.sha).isSome
          trailer.sha

def planCherryPicks (self : CommitSnapshotRow) : List DerivedLinkDoc :=
  firsts DerivedLinkDoc.linkId <| (snapshots.cherryDocsOf self).filter fun doc =>
    doc.target ≠ .commit self.commitSha

end Snapshots

/-! ### All edges of a source -/

/-- The source has a row. -/
def Snapshots.has (snapshots : Snapshots) : LinkSource → Bool
  | .pullRequest prNumber => (snapshots.findPullRequestSnapshot prNumber).isSome
  | .commit sha => (snapshots.findCommitSnapshot sha).isSome

def stackDoc (row : StackRow) : DerivedLinkDoc where
  linkType := .stacksOn
  source := .pullRequest row.childPrNumber
  target := .pullRequest row.parentPrNumber
  confidence := .derived
  evidence := row.evidence
  detached := some row.detached
  createdAt := .text row.edgeCreatedAt
  resolved := true

def stackDocsFromRows (rows : List StackRow) : List DerivedLinkDoc := rows.map stackDoc

structure RelationPlanParts where
  revertDocs : List DerivedLinkDoc
  cherryDocs : List DerivedLinkDoc
  stackPlan : Option (Nat × StackPlan) := none

section Plan

variable (toLowerCase : Text → Text)

/-- What a pull request says about reverts, in its title and in its body. -/
def pullRequestReverts (document : PullRequestDocument) : List ExtractedRevert :=
  extractReverts toLowerCase (field document.title) true ++
    extractReverts toLowerCase (field document.body) false

variable (snapshots : Snapshots)

/-- The plan of a source, or `none` where it has no row. -/
def planRelationParts : LinkSource → Option RelationPlanParts
  | .commit sha =>
      (snapshots.findCommitSnapshot sha).map fun self =>
        { revertDocs := snapshots.planReverts (.commit sha) (.instant self.committedAt)
            (extractCommitReverts toLowerCase self.message),
          cherryDocs := snapshots.planCherryPicks self }
  | .pullRequest prNumber =>
      (snapshots.findPullRequestSnapshot prNumber).map fun self =>
        { revertDocs := snapshots.planReverts (.pullRequest prNumber)
            (.text (canonicalTime self.document)) (pullRequestReverts toLowerCase self.document),
          cherryDocs := [],
          stackPlan := some (prNumber, snapshots.planStacks self) }

/-- The edges that a source should have. -/
def planRelationEdges (table : StackTable) (source : LinkSource) : Option (List DerivedLinkDoc) :=
  (planRelationParts toLowerCase snapshots source).map fun parts =>
    match parts.stackPlan with
    | none => parts.revertDocs ++ parts.cherryDocs
    | some (child, plan) =>
        parts.revertDocs ++ parts.cherryDocs ++
          stackDocsFromRows (mergeStackRows child (listStacksOfChild table child) plan.desired)

end Plan

end PrSearch.Relation
