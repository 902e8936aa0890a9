import PrSearch.Search.Service
import PrSearch.Search.Space

/-! # The search route

The route binds a query to its space before it searches. A query that names no space, or several, is
refused, and so are parameters that mean nothing for it; what a user cannot see is not found.
-/
namespace PrSearch.Search.Listing

open Query Authz

structure ErrorResponse where
  status : Nat
  code : String
  field : Option String := none
  reason : Option String := none
  requiredKeys : List String := []
  sequenceBranches : List Text := []
  deriving DecidableEq, Repr

def SequenceBindingProblem.reason : SequenceBindingProblem → String
  | .sequenceSpaceRequired => "sequence_space_required"
  | .sequenceSpaceAmbiguous => "sequence_space_ambiguous"

def RepositoryBindingProblem.reason : RepositoryBindingProblem → String
  | .repositoryRequired => "repository_required"
  | .repositoryAmbiguous => "repository_ambiguous"

def invalidParameter (field : String) (reason : Option String) (requiredKeys : List String) :
    ErrorResponse :=
  { status := 400, code := "INVALID_PARAMETER", field := some field, reason := reason
    requiredKeys := requiredKeys }

def toSequenceFailure : SequenceContextOutcome → Option ErrorResponse
  | .unbindable reason =>
      some (invalidParameter "q" (some (SequenceBindingProblem.reason reason)) ["repo", "base"])
  | .badEpochParam => some (invalidParameter "seq_epoch" none [])
  | .orphanEpochParam => some (invalidParameter "seq_epoch" (some "sequence_reference_absent") [])
  | .spaceUnavailable => some { status := 404, code := "NOT_FOUND" }
  | _ => none

def toMergeNumberRangeFailure : MergeNumberRangeOutcome → Option ErrorResponse
  | .unbindable reason =>
      some (invalidParameter "q" (some (SequenceBindingProblem.reason reason)) ["repo", "base"])
  | .branchRequired _ branches =>
      some { invalidParameter "q" (some "sequence_space_ambiguous") ["base"] with
        sequenceBranches := branches }
  | .spaceUnavailable => some { status := 404, code := "NOT_FOUND" }
  | _ => none

def toPrNumberRangeFailure : RepositoryBindingAnalysis → Option ErrorResponse
  | .invalid reason =>
      some (invalidParameter "q" (some (RepositoryBindingProblem.reason reason)) ["repo"])
  | _ => none

def checkMergeNumberFeatureFlag (ast : QueryAst) (enabled : Bool) : Option ErrorResponse :=
  if enabled || !hasMergeNumberRangeFilter ast then none
  else some { status := 400, code := "QUERY_SYNTAX_ERROR", reason := some "merge_number_disabled" }

/-- A request whose query has been read. -/
structure ListRequest (σ : Type) where
  ast : QueryAst
  epochParam : EpochParam
  scope : AccessScope
  scopeVersion : Int
  sortKey : SortKey
  order : SortOrder
  size : Nat
  cursor : Option (Envelope σ)
  cursorBinding : Option Text

inductive SearchFailure
  | response (error : ErrorResponse)
  | thrown (error : SearchError)
  deriving DecidableEq, Repr

inductive SearchAnswer (σ : Type)
  | stale (requested : Int) (context : SequenceContext)
  | results (sequence : SequenceContextOutcome) (mergeNumber : MergeNumberRangeOutcome)
      (result : SearchResult σ)

def SequenceContextOutcome.reuse : SequenceContextOutcome → Option Reuse
  | .bound _ context => some ⟨context.repository, context.baseBranch, context.seqEpoch⟩
  | _ => Option.none

def SequenceContextOutcome.epoch : SequenceContextOutcome → Option Int
  | .bound epoch _ => some epoch
  | _ => Option.none

def MergeNumberRangeOutcome.epoch : MergeNumberRangeOutcome → Option Int
  | .bound epoch _ => some epoch
  | _ => Option.none

def MergeNumberRangeOutcome.baseBranch : MergeNumberRangeOutcome → Option Text
  | .bound _ baseBranch => some baseBranch
  | _ => Option.none

section

variable {σ : Type} [LinearOrder σ]

/-- The request of a bound query. -/
def ListRequest.bind (request : ListRequest σ) (sequence : SequenceContextOutcome)
    (mergeNumber : MergeNumberRangeOutcome) : SearchRequest σ :=
  { ast := request.ast
    scope := request.scope
    scopeVersion := request.scopeVersion
    sortKey := request.sortKey
    order := request.order
    size := request.size
    cursor := request.cursor
    sequenceEpoch := sequence.epoch
    mergeNumberEpoch := mergeNumber.epoch
    mergeNumberBaseBranch := mergeNumber.baseBranch
    cursorBinding := request.cursorBinding }

def executeSearch (registry : Registry) (mergeNumberEnabled : Bool) (deps : SearchDeps σ)
    (request : ListRequest σ) : Except SearchFailure (SearchAnswer σ) :=
  let sequence := resolveSequenceContext registry request.ast request.epochParam request.scope
  match toSequenceFailure sequence with
  | some error => .error (.response error)
  | none =>
  match sequence with
  | .stale requested context => .ok (.stale requested context)
  | sequence =>
  match checkMergeNumberFeatureFlag request.ast mergeNumberEnabled with
  | some error => .error (.response error)
  | none =>
  match toPrNumberRangeFailure (analyzePrNumberBinding request.ast) with
  | some error => .error (.response error)
  | none =>
  let mergeNumber := resolveMergeNumberRangeEpoch registry request.ast request.scope sequence.reuse
  match toMergeNumberRangeFailure mergeNumber with
  | some error => .error (.response error)
  | none =>
  match runSearch (request.bind sequence mergeNumber) deps with
  | .error error => .error (.thrown error)
  | .ok result => .ok (.results sequence mergeNumber result)

end
end PrSearch.Search.Listing
