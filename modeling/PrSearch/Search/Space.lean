import PrSearch.Authz.ScopeForms
import PrSearch.Search.Builder
import PrSearch.Sequence.Store

/-! # The space of a search

A range of sequence or merge numbers binds a search to a space, one branch of one repository, and to its
current epoch. A repository is looked up within the access scope, and a space that was never numbered
counts as none. Merge numbers may leave the branch open where a repository tracks a single one.
-/
namespace PrSearch.Search.Listing

open Query Authz Sequence

/-! ### Repositories and spaces -/

structure RepositorySlug where
  owner : Text
  name : Text
  deriving DecidableEq, Repr

def parseRepositorySlug (raw : Text) : Option RepositorySlug :=
  match (trim raw).splitOn '/' with
  | [owner, name] => if owner = [] ∨ name = [] then none else some ⟨owner, name⟩
  | _ => none

/-- A row of `repository` with the branches it tracks. -/
structure RepositoryRow extends Repository where
  sequenceBranches : List Text

/-- A row of `sequence_space`. -/
structure SequenceSpaceRow where
  repositoryId : Int
  baseBranch : Text
  seqEpoch : Int
  state : SequenceSpaceState
  headSeq : Int

structure Registry where
  repositories : List RepositoryRow
  spaces : List SequenceSpaceRow

def findRepositoryBySlug (registry : Registry) (slug : RepositorySlug) : Option RepositoryRow :=
  registry.repositories.find? fun row =>
    row.owner = String.ofList slug.owner && row.name = String.ofList slug.name

def findSequenceSpace (registry : Registry) (repositoryId : Int) (baseBranch : Text) :
    Option SequenceSpaceRow :=
  registry.spaces.find? fun row => row.repositoryId = repositoryId && row.baseBranch = baseBranch

structure ResolvedSpace where
  repositoryId : Int
  baseBranch : Text
  seqEpoch : Int
  state : SequenceSpaceState
  headSeq : Int
  sequenceSpace : Text
  deriving DecidableEq, Repr

/-- `SpaceLookup` and `RepositoryLookup` -/
inductive Lookup (α : Type)
  | ok (found : α)
  | notFound (message : String)
  | forbidden (message : String)

def unregistered (slug : RepositorySlug) : String :=
  "등록되지 않은 저장소다: " ++ String.ofList (slug.owner ++ '/' :: slug.name)

def resolveRepository (registry : Registry) (slug : RepositorySlug) (scope : AccessScope) :
    Lookup RepositoryRow :=
  match findRepositoryBySlug registry slug with
  | none => .notFound (unregistered slug)
  | some repository =>
      if isRepositoryInScope repository.toRepository scope then .ok repository
      else .forbidden (unregistered slug)

def resolveSpace (registry : Registry) (slug : RepositorySlug) (baseBranch : Text)
    (scope : AccessScope) : Lookup ResolvedSpace :=
  let label := slug.owner ++ '/' :: slug.name ++ '@' :: baseBranch
  match resolveRepository registry slug scope with
  | .notFound message => .notFound message
  | .forbidden message => .forbidden message
  | .ok repository =>
      match findSequenceSpace registry repository.repositoryId baseBranch with
      | none => .notFound ("채번된 적이 없는 시퀀스 공간이다: " ++ String.ofList label)
      | some space =>
          .ok ⟨repository.repositoryId, baseBranch, space.seqEpoch, space.state, space.headSeq, label⟩

/-! ### Binding a search -/

/-- `seq_epoch` of a request as `readEpochParam` reads it. -/
inductive EpochParam
  | absent
  | value (epoch : Int)
  | invalid
  deriving DecidableEq, Repr

structure SequenceContext where
  sequenceSpace : Text
  repository : Text
  baseBranch : Text
  seqEpoch : Int
  sequenceState : SequenceSpaceState
  deriving DecidableEq, Repr

inductive SequenceContextOutcome
  | none
  | bound (epoch : Int) (context : SequenceContext)
  | stale (requested : Int) (context : SequenceContext)
  | unbindable (reason : SequenceBindingProblem)
  | badEpochParam
  | orphanEpochParam
  | spaceUnavailable
  deriving DecidableEq, Repr

def toContext (space : ResolvedSpace) (repository : Text) : SequenceContext :=
  ⟨space.sequenceSpace, repository, space.baseBranch, space.seqEpoch, space.state⟩

/-- The space of a repository as it is written in a query. -/
def lookupSpace (registry : Registry) (repository baseBranch : Text) (scope : AccessScope) :
    Option ResolvedSpace :=
  match parseRepositorySlug repository with
  | none => none
  | some slug =>
      match resolveSpace registry slug baseBranch scope with
      | .ok space => some space
      | _ => none

def resolveSequenceContext (registry : Registry) (ast : QueryAst) (epochParam : EpochParam)
    (scope : AccessScope) : SequenceContextOutcome :=
  match analyzeSequenceBinding ast with
  | .none | .repositoryOnly _ => if epochParam = .absent then .none else .orphanEpochParam
  | .invalid reason => .unbindable reason
  | .bound repository baseBranch =>
      if epochParam = .invalid then .badEpochParam
      else
        match lookupSpace registry repository baseBranch scope with
        | none => .spaceUnavailable
        | some space =>
            match epochParam with
            | .value epoch =>
                if epoch ≠ space.seqEpoch then .stale epoch (toContext space repository)
                else .bound space.seqEpoch (toContext space repository)
            | _ => .bound space.seqEpoch (toContext space repository)

inductive MergeNumberRangeOutcome
  | none
  | bound (epoch : Int) (baseBranch : Text)
  | unbindable (reason : SequenceBindingProblem)
  | branchRequired (repository : Text) (sequenceBranches : List Text)
  | spaceUnavailable
  deriving DecidableEq, Repr

/-- The space that is already known, which is not read again. -/
structure Reuse where
  repository : Text
  baseBranch : Text
  epoch : Int

/-- The branch of a space is known. -/
def bindMergeNumbers (registry : Registry) (scope : AccessScope) (reuse : Option Reuse)
    (repository : Text) (slug : RepositorySlug) (baseBranch : Text) : MergeNumberRangeOutcome :=
  match reuse.filter fun known => known.repository = repository && known.baseBranch = baseBranch with
  | some known => .bound known.epoch baseBranch
  | none =>
      match resolveSpace registry slug baseBranch scope with
      | .ok space => .bound space.seqEpoch baseBranch
      | _ => .spaceUnavailable

def resolveMergeNumberRangeEpoch (registry : Registry) (ast : QueryAst) (scope : AccessScope)
    (reuse : Option Reuse) : MergeNumberRangeOutcome :=
  match analyzeMergeNumberBinding ast with
  | .none => .none
  | .invalid reason => .unbindable reason
  | .bound repository baseBranch =>
      match parseRepositorySlug repository with
      | none => .spaceUnavailable
      | some slug => bindMergeNumbers registry scope reuse repository slug baseBranch
  | .repositoryOnly repository =>
      match parseRepositorySlug repository with
      | none => .spaceUnavailable
      | some slug =>
          match resolveRepository registry slug scope with
          | .ok row =>
              match row.sequenceBranches with
              | [only] => bindMergeNumbers registry scope reuse repository slug only
              | branches => .branchRequired repository branches
          | _ => .spaceUnavailable

end PrSearch.Search.Listing
