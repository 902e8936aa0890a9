import PrSearch.Search.Cursor
import PrSearch.Search.Relaxation

/-! # Running a search

`runSearch` takes the conditions on the kind out of the query, builds the rest, adds the access scope and
reads one item more than a page holds. The last item of a page that is not the last one is where its cursor
stands. Without any result the hints are computed.
-/
namespace PrSearch.Search.Listing

open Index Query Authz

/-- `TRACK_TOTAL_HITS` -/
def trackTotalHits : Nat := 10000

structure Total where
  value : Nat
  relation : String
  deriving DecidableEq, Repr

/-- What is told of a number of hits. -/
def totalOf (hits : Nat) : Total :=
  if hits ≤ trackTotalHits then ⟨hits, "eq"⟩ else ⟨trackTotalHits, "gte"⟩

structure SearchRequest (σ : Type) where
  ast : QueryAst
  scope : AccessScope
  scopeVersion : Int
  sortKey : SortKey
  order : SortOrder
  size : Nat
  cursor : Option (Envelope σ)
  sequenceEpoch : Option Int
  mergeNumberEpoch : Option Int
  mergeNumberBaseBranch : Option Text
  cursorBinding : Option Text

structure SearchDeps (σ : Type) where
  elastic : Elastic σ
  zones : Zones
  resolveNames : Except String NameResolution
  multiSearch : MultiSearch
  baseTarget : List EntityAlias
  sign : CursorSigner σ
  hash : Text → Text
  now : Int

inductive SearchError
  | names (name : String)
  | build (error : BuildQueryError)
  | scope (error : AccessScopeUnavailableError)
  | cursor (error : CursorError)
  deriving DecidableEq, Repr

structure SearchResult (σ : Type) where
  total : Total
  items : List StoredDocument
  relaxation : RelaxationResult
  unresolved : List UnresolvedName
  nextCursor : Option (Envelope σ)

section

variable {σ : Type}

def SearchRequest.options (request : SearchRequest σ) : BuildQueryOptions :=
  ⟨request.sequenceEpoch, request.mergeNumberEpoch, request.mergeNumberBaseBranch⟩

def SearchRequest.fingerprintInput (request : SearchRequest σ) : FingerprintInput :=
  { query := serializeQuery request.ast
    sortKey := request.sortKey
    order := request.order
    scope := request.scope
    scopeVersion := request.scopeVersion
    sequenceEpoch := request.sequenceEpoch
    mergeNumberEpoch := request.mergeNumberEpoch
    mergeNumberBaseBranch := request.mergeNumberBaseBranch
    binding := request.cursorBinding }

/-- `name` of an error that is thrown while candidates are assembled. -/
def BuildQueryError.name : BuildQueryError → String
  | .sequenceEpochRequired => "SequenceEpochRequiredError"
  | .mergeNumberEpochRequired => "MergeNumberEpochRequiredError"
  | .mergeNumberBranchRequired => "MergeNumberBranchRequiredError"
  | .kindFilterNotApplied => "KindFilterNotAppliedError"
  | .range => "RangeError"

/-- None of the candidates could be counted. -/
def uncounted (ast : QueryAst) (stage : RelaxationStage) (name : String) : RelaxationResult :=
  { hints := []
    truncated := maxRelaxationHints < ast.filters.length
    incomplete := true
    failure := some ⟨stage, name, 0, min ast.filters.length maxRelaxationHints⟩ }

/-- Only a missing scope makes the search fail here. -/
def relaxationOf (request : SearchRequest σ) (deps : SearchDeps σ)
    (resolution : Except String NameResolution) : Except SearchError RelaxationResult :=
  match resolution with
  | .error name => .ok (uncounted request.ast .resolve name)
  | .ok resolution =>
      match computeRelaxationHints request.ast
          ⟨deps.zones, deps.multiSearch, deps.baseTarget, request.scope, resolution,
            request.options⟩ with
      | .ok result => .ok result
      | .error (.scope error) => .error (.scope error)
      | .error (.build error) => .ok (uncounted request.ast .compute (BuildQueryError.name error))

/-- The cursor of a request, opened. -/
def resume (request : SearchRequest σ) (deps : SearchDeps σ) (fingerprint : Text) :
    Except CursorError (Option (SearchCursor σ)) :=
  match request.cursor with
  | none => .ok none
  | some raw => (decodeSearchCursor raw fingerprint deps.sign deps.now).map some

variable [LinearOrder σ]

/-- The page that a built query finds, with the cursor of the next one. -/
def runPage (request : SearchRequest σ) (deps : SearchDeps σ) (target : List EntityAlias)
    (query : Query) : Except CursorError (Nat × List StoredDocument × Option (Envelope σ)) :=
  let fingerprint := computeFingerprint deps.hash request.fingerprintInput
  match resume request deps fingerprint with
  | .error error => .error error
  | .ok resumed =>
      let pitId := (resumed.map SearchCursor.pitId).getD (deps.elastic.openPointInTime target)
      let sort := buildSort request.sortKey request.order
      let response := searchWithPit deps.elastic query pitId (request.size + 1) sort
        (resumed.map SearchCursor.searchAfter)
      let livePitId := (deps.elastic.renewed pitId).getD pitId
      let hasMore := request.size < response.hits.length
      let page := if hasMore then response.hits.take request.size else response.hits
      let lastSort := page.getLast?.map (sortValues deps.elastic query sort)
      let nextCursor :=
        match lastSort with
        | some (value :: values) =>
            if hasMore then
              some (encodeSearchCursor ⟨livePitId, value :: values⟩ fingerprint deps.sign deps.now)
            else none
        | _ => none
      .ok (response.total, page, nextCursor)

def runSearch (request : SearchRequest σ) (deps : SearchDeps σ) :
    Except SearchError (SearchResult σ) :=
  let resolved := resolveSearchTarget request.ast deps.baseTarget
  match resolved.target with
  | none =>
      match relaxationOf request deps deps.resolveNames with
      | .error error => .error error
      | .ok relaxation =>
          .ok ⟨⟨0, "eq"⟩, [], relaxation, [], none⟩
  | some target =>
      match deps.resolveNames with
      | .error name => .error (.names name)
      | .ok resolution =>
      match buildQuery deps.zones resolved.ast resolution request.options with
      | .error error => .error (.build error)
      | .ok built =>
      match applyMandatoryScopeFilter built.query request.scope with
      | .error error => .error (.scope error)
      | .ok query =>
      match runPage request deps target query with
      | .error error => .error (.cursor error)
      | .ok (hits, page, nextCursor) =>
          let total := totalOf hits
          if total.value = 0 then
            match relaxationOf request deps (.ok resolution) with
            | .error error => .error error
            | .ok relaxation => .ok ⟨total, page, relaxation, built.unresolved, nextCursor⟩
          else .ok ⟨total, page, noRelaxation, built.unresolved, nextCursor⟩

end
end PrSearch.Search.Listing
