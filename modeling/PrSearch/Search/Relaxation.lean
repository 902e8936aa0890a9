import PrSearch.Authz.ScopeForms
import PrSearch.Query.Serialize
import PrSearch.Search.Elastic

/-! # Hints for a search without a result

When a search finds nothing, each of its first conditions is left out in turn and what is found then is
counted. A candidate that could not be searched is left out, and so is one without a result or without
a reliable count.
-/
namespace PrSearch.Search.Listing

open Index Query Authz

/-- `MAX_RELAXATION_HINTS` -/
def maxRelaxationHints : Nat := 8

structure RelaxationHint where
  remove : Text
  wouldYield : Nat
  deriving DecidableEq, Repr

inductive RelaxationStage
  | resolve
  | compute
  | msearch
  | branch
  deriving DecidableEq, Repr

structure RelaxationFailure where
  stage : RelaxationStage
  reason : String
  counted : Nat
  failed : Nat
  deriving DecidableEq, Repr

structure RelaxationResult where
  hints : List RelaxationHint
  truncated : Bool
  incomplete : Bool
  failure : Option RelaxationFailure := none
  deriving DecidableEq, Repr

/-- `NO_RELAXATION` -/
def noRelaxation : RelaxationResult := { hints := [], truncated := false, incomplete := false }

/-- The tree without one of its conditions. -/
def without (ast : QueryAst) (index : Nat) : QueryAst :=
  { ast with filters := ast.filters.eraseIdx index }

def describe (filter : QueryFilter) : Text := serializeQuery { filters := [filter], text := none }

structure ScopedSearchRequest where
  target : List EntityAlias
  query : Query

inductive HitsTotal
  | number (value : Nat)
  | counted (value : Nat) (relation : String)
  deriving DecidableEq, Repr

inductive MsearchItem
  | error (type : String)
  | answer (failedShards : Nat) (timedOut : Bool) (total : Option HitsTotal)
  deriving DecidableEq, Repr

abbrev MultiSearch := List ScopedSearchRequest → Except String (List MsearchItem)

/-- The exact count of a branch, or why there is none. -/
def countOf : Option MsearchItem → Except String Nat
  | none => .error "missing_response"
  | some (.error type) => .error type
  | some (.answer failedShards timedOut total) =>
      if 0 < failedShards then .error "shard_failures"
      else if timedOut then .error "timed_out"
      else
        match total with
        | none => .error "total_missing"
        | some (.number value) => .ok value
        | some (.counted value relation) =>
            if relation = "eq" then .ok value else .error "total_lower_bound"

/-- `RelaxationDeps` -/
structure RelaxationDeps where
  zones : Zones
  multiSearch : MultiSearch
  baseTarget : List EntityAlias
  scope : AccessScope
  resolution : NameResolution
  options : BuildQueryOptions

structure CountedCandidate where
  filter : QueryFilter
  request : ScopedSearchRequest

inductive AssemblyError
  | build (error : BuildQueryError)
  | scope (error : AccessScopeUnavailableError)
  deriving DecidableEq, Repr

/-- A tree that the search would not refuse. -/
def bindable (ast : QueryAst) : Bool :=
  (match analyzeSequenceBinding ast with | .invalid _ => false | _ => true) &&
    (match analyzeMergeNumberBinding ast with | .invalid _ => false | _ => true) &&
      match analyzePrNumberBinding ast with | .invalid _ => false | _ => true

/-- The request that counts a candidate; there is none when no index is left. -/
def candidateRequest (deps : RelaxationDeps) (relaxed : QueryAst) :
    Except AssemblyError (Option ScopedSearchRequest) :=
  let resolved := resolveSearchTarget relaxed deps.baseTarget
  match resolved.target with
  | none => .ok none
  | some target =>
      match buildQuery deps.zones resolved.ast deps.resolution deps.options with
      | .error error => .error (.build error)
      | .ok built =>
          match applyMandatoryScopeFilter built.query deps.scope with
          | .error error => .error (.scope error)
          | .ok query => .ok (some ⟨target, query⟩)

/-- The candidates in their order; assembling them stops at the first error. -/
def countedCandidates (deps : RelaxationDeps) :
    List (QueryFilter × QueryAst) → Except AssemblyError (List CountedCandidate)
  | [] => .ok []
  | (filter, relaxed) :: rest =>
      match candidateRequest deps relaxed with
      | .error error => .error error
      | .ok request =>
          match countedCandidates deps rest with
          | .error error => .error error
          | .ok counted => .ok ((request.toList.map fun request => ⟨filter, request⟩) ++ counted)

/-- What has been counted of a candidate, with the condition it leaves out. -/
def outcomes (counted : List CountedCandidate) (responses : List MsearchItem) :
    List (QueryFilter × Except String Nat) :=
  counted.zipIdx.map fun (candidate, index) => (candidate.filter, countOf responses[index]?)

def hintOf : QueryFilter × Except String Nat → Option RelaxationHint
  | (filter, .ok value) => if value = 0 then none else some ⟨describe filter, value⟩
  | (_, .error _) => none

def reasonOf : QueryFilter × Except String Nat → Option String
  | (_, .error reason) => some reason
  | (_, .ok _) => none

def computeRelaxationHints (ast : QueryAst) (deps : RelaxationDeps) :
    Except AssemblyError RelaxationResult :=
  if ast.filters.length < 2 then .ok noRelaxation
  else
    let truncated : Bool := maxRelaxationHints < ast.filters.length
    let candidates := (((ast.filters.take maxRelaxationHints).zipIdx).map
      fun (filter, index) => (filter, without ast index)).filter fun candidate => bindable candidate.2
    match countedCandidates deps candidates with
    | .error error => .error error
    | .ok [] => .ok { hints := [], truncated := truncated, incomplete := false }
    | .ok counted =>
        match deps.multiSearch (counted.map CountedCandidate.request) with
        | .error name =>
            .ok { hints := [], truncated := truncated, incomplete := true
                  failure := some ⟨.msearch, name, counted.length, counted.length⟩ }
        | .ok responses =>
            let all := outcomes counted responses
            let hints := (all.filterMap hintOf).mergeSort fun left right =>
              right.wouldYield ≤ left.wouldYield
            match all.filterMap reasonOf with
            | [] => .ok { hints := hints, truncated := truncated, incomplete := false }
            | reason :: others =>
                .ok { hints := hints, truncated := truncated, incomplete := true
                      failure := some ⟨.branch, reason, counted.length, others.length + 1⟩ }

end PrSearch.Search.Listing
