import PrSearch.Lib.Automaton
import PrSearch.Relation.Plan

/-! # Deriving the edges

When a pull request or a commit has changed, its edges are derived anew, and so are those of other
sources that the change may concern. These are looked up: the commits that mention a commit and the
later ones with its patch, the pull requests that have the head of a pull request as their base or
have been stacked on it, and whatever has one of four titles that revert the title. What is derived
for them is not followed any further.
-/
namespace PrSearch.Relation

open Query (Text)
open Rows

def affectedLimit : Nat := 200

/-- The canonical rows, the table of the stacks and the index of the edges. -/
structure Store where
  snapshots : Snapshots
  stackTable : StackTable
  links : Table DerivedLinkDoc.linkId

def Store.empty : Store := ⟨.empty, .empty, .empty⟩

/-! ### The table of the stacks -/

/-- The edges that hold are written, and the other ones of the child are detached. -/
def reconcileStacks (table : StackTable) (child : Nat) (desired : List StackDesired) : StackTable :=
  (table.putAll (desired.map (StackDesired.row child))).update
    (fun row =>
      if row.childPrNumber = child ∧ ∀ one ∈ desired, one.parentPrNumber ≠ row.parentPrNumber then
        row.detach
      else row)
    (fun row => by split <;> rfl)

/-- `toImport`: a row for an edge of the index. -/
def toImport (doc : DerivedLinkDoc) : Option StackRow :=
  match doc.linkType, doc.source, doc.target, doc.detached, doc.createdAt with
  | .stacksOn, .pullRequest child, .pullRequest parent, some detached, .text createdAt =>
      if 0 < child ∧ 0 < parent ∧ child ≠ parent then
        some ⟨child, parent, doc.evidence, createdAt, detached, .imported⟩
      else none
  | _, _, _, _, _ => none

/-- The edges of the index that the table does not know become rows, for one end. -/
def importServingStacks (store : Store) (scope : DerivedLinkDoc → Bool) : Store :=
  { store with
    stackTable := store.stackTable.putAllNew ((store.links.rows.filter scope).filterMap toImport) }

/-! ### One source -/

section Derive

variable (toLowerCase : Text → Text) (servingStackImport : Bool)

def importLegacyStacks (store : Store) (scope : DerivedLinkDoc → Bool) : Store :=
  if servingStackImport then importServingStacks store scope else store

def deleteStaleDerivedLinks (links : Table DerivedLinkDoc.linkId) (linkType : LinkType)
    (source : LinkSource) (kept : List DerivedLinkDoc) : Table DerivedLinkDoc.linkId :=
  links.delete fun doc => doc.linkType = linkType && doc.source = source &&
    !(kept.map DerivedLinkDoc.linkId).contains doc.linkId

/-- The rows of the child are brought into line with what holds now. The edges are those of all its
rows. -/
def deriveStacks (store : Store) : Option (Nat × StackPlan) → Store × List DerivedLinkDoc
  | none => (store, [])
  | some (child, plan) =>
      let imported := importLegacyStacks servingStackImport store fun doc =>
        doc.source = .pullRequest child
      let table := reconcileStacks imported.stackTable child plan.desired
      ({ imported with stackTable := table }, stackDocsFromRows (listStacksOfChild table child))

/-- The edges of the plan are written, and then the stale reverts of the source are deleted, and the
stale cherry-picks of a commit. -/
def writeEdges (links : Table DerivedLinkDoc.linkId) (source : LinkSource)
    (revertDocs cherryDocs stackDocs : List DerivedLinkDoc) : Table DerivedLinkDoc.linkId :=
  let written := links.putAll (revertDocs ++ cherryDocs ++ stackDocs)
  let reverted := deleteStaleDerivedLinks written .reverts source revertDocs
  match source with
  | .commit _ => deleteStaleDerivedLinks reverted .cherryPicks source cherryDocs
  | .pullRequest _ => reverted

def deriveRelations (store : Store) (source : LinkSource) : Store :=
  match planRelationParts toLowerCase store.snapshots source with
  | none => store
  | some parts =>
      let (stacked, stackDocs) := deriveStacks servingStackImport store parts.stackPlan
      { stacked with
        links := writeEdges stacked.links source parts.revertDocs parts.cherryDocs stackDocs }

/-! ### The others -/

/-- The titles of those that revert a title. -/
def reverterTitles (title : Text) : List Text :=
  if title = [] then []
  else ["Revert \"".toList ++ title ++ ['"'], "Revert “".toList ++ title ++ ['”'],
    "Revert: ".toList ++ title, "Revert ".toList ++ title]

namespace Snapshots

variable (snapshots : Snapshots)

def titleReverters (title : Text) : List LinkSource :=
  (reverterTitles title).flatMap fun candidate =>
    ((snapshots.findPullRequestsByTitle candidate revertCandidateLimit).map fun row =>
        LinkSource.pullRequest row.prNumber) ++
      ((snapshots.findCommitsBySubject candidate revertCandidateLimit).map fun row =>
        LinkSource.commit row.commitSha)

/-- Those that a change of the commit may concern. -/
def affectedByCommit (row : CommitSnapshotRow) : List LinkSource :=
  ((snapshots.findCommitsRevertingSha row.commitSha affectedLimit).map fun other =>
      LinkSource.commit other.commitSha) ++
    (match row.patchId with
      | none => []
      | some patchId =>
          ((snapshots.findCommitsByPatchId patchId row.commitSha affectedLimit).filter fun other =>
            isLater other row).map fun other => LinkSource.commit other.commitSha) ++
    snapshots.titleReverters (commitSubject row.message)

/-- Those that a change of the pull request may concern. -/
def affectedByPullRequest (table : StackTable) (row : PullRequestSnapshotRow) : List LinkSource :=
  (if field row.document.headBranch = [] then []
    else (snapshots.findPullRequestsByBaseBranch (field row.document.headBranch)
      affectedLimit).map fun child => LinkSource.pullRequest child.prNumber) ++
    (listChildrenOf table row.prNumber affectedLimit).map LinkSource.pullRequest ++
    snapshots.titleReverters (field row.document.title)

end Snapshots

/-- Each of them once, without the source itself, up to the limit. -/
def targetsOf (source : LinkSource) (candidates : List LinkSource) : List LinkSource :=
  (firsts id (candidates.filter fun candidate => candidate ≠ source)).take affectedLimit

/-- The sources that are derived anew with this one. -/
def affectedSources (snapshots : Snapshots) (table : StackTable) : LinkSource → List LinkSource
  | .commit sha =>
      ((snapshots.findCommitSnapshot sha).map fun row =>
        targetsOf (.commit sha) (snapshots.affectedByCommit row)).getD []
  | .pullRequest prNumber =>
      ((snapshots.findPullRequestSnapshot prNumber).map fun row =>
        targetsOf (.pullRequest prNumber) (snapshots.affectedByPullRequest table row)).getD []

/-- Before the children of a parent are looked up, its edges become rows. -/
def importParent (store : Store) : LinkSource → Store
  | .commit _ => store
  | .pullRequest prNumber =>
      if (store.snapshots.findPullRequestSnapshot prNumber).isSome then
        importLegacyStacks servingStackImport store fun doc => doc.target = .pullRequest prNumber
      else store

def reevaluateAffectedRelations (store : Store) (source : LinkSource) : Store :=
  let imported := importParent servingStackImport store source
  (affectedSources imported.snapshots imported.stackTable source).foldl
    (deriveRelations toLowerCase servingStackImport) imported

def handleRelationsReady (store : Store) (source : LinkSource) : Store :=
  reevaluateAffectedRelations toLowerCase servingStackImport
    (deriveRelations toLowerCase servingStackImport store source) source

end Derive

/-! ### Changes -/

/-- What a commit is. It does not change. -/
structure CommitObject where
  message : Text
  committedAt : Int
  patchId : Text

/-- A pull request arrives or is edited, and a commit arrives or is given its patch-id. -/
inductive Change
  | pullRequest (row : PullRequestSnapshotRow)
  | commit (sha : Sha) (withPatchId : Bool)

def Change.source : Change → LinkSource
  | .pullRequest row => .pullRequest row.prNumber
  | .commit sha _ => .commit sha

section Run

variable (object : Sha → CommitObject)

def commitRow (sha : Sha) (withPatchId : Bool) : CommitSnapshotRow where
  commitSha := sha
  message := (object sha).message
  committedAt := (object sha).committedAt
  patchId := if withPatchId then some (object sha).patchId else none

def Snapshots.change (snapshots : Snapshots) : Change → Snapshots
  | .pullRequest row => snapshots.upsertPullRequestSnapshot row
  | .commit sha withPatchId => snapshots.upsertCommitSnapshot (commitRow object sha withPatchId)

/-- The store right after a change. -/
def Store.change (store : Store) (change : Change) : Store :=
  { store with snapshots := store.snapshots.change object change }

/-- A repository takes one change after the other, and each is handled before the next one. -/
def relations (toLowerCase : Text → Text) (servingStackImport : Bool) :
    Automaton Store Change where
  step store change := some <| handleRelationsReady toLowerCase servingStackImport
    (store.change object change) change.source

end Run

end PrSearch.Relation
