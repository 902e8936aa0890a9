import PrSearch.Search.Candidates

/-! # What the hints tell

A hint names a condition of the query, and the number that it comes with is what the route finds when the
query is searched without it, in the same space. When all candidates could be counted, no condition is left
out whose absence would let something be found there.
-/
namespace PrSearch.Search.Listing

open Index Query Authz

variable {n : Nat} {asked : ScopedSearchRequest} {resolution : NameResolution} {scope : AccessScope}

variable {counted : List CountedCandidate} {filter : QueryFilter} {responses : List MsearchItem}
  {epochParam : EpochParam} {base : RelaxationDeps}

/-! ### The candidates that are counted -/

section Counted

variable {σ : Type} {elastic : Elastic σ} {deps : RelaxationDeps} {ast : QueryAst}
  {result : RelaxationResult}

/-- The answers of `multiSearch` that tell a number tell the right one. -/
def Exact (elastic : Elastic σ) (multiSearch : MultiSearch) : Prop :=
  ∀ requests responses, multiSearch requests = .ok responses →
    ∀ (i : Nat) asked n total, requests[i]? = some asked →
      responses[i]? = some (.answer 0 false (some total)) →
        total = .number n ∨ total = .counted n "eq" → n = (found elastic asked.query asked.target).length

theorem countOf_ok {item : Option MsearchItem} (counted : countOf item = .ok n) :
    ∃ total, item = some (.answer 0 false (some total)) ∧
      (total = .number n ∨ total = .counted n "eq") := by
  unfold countOf at counted
  split at counted
  next => cases counted
  next => cases counted
  next failedShards timedOut total =>
    split at counted
    next => cases counted
    next whole =>
      obtain rfl : failedShards = 0 := Nat.eq_zero_of_not_pos whole
      split at counted
      next => cases counted
      next inTime =>
        obtain rfl : timedOut = false := by simpa using inTime
        split at counted
        next => cases counted
        next value =>
          cases counted
          exact ⟨_, rfl, .inl rfl⟩
        next value relation =>
          split at counted
          next eq =>
            cases counted
            exact ⟨_, rfl, .inr (by rw [eq])⟩
          next => cases counted

theorem mem_countedCandidates {candidates : List (QueryFilter × QueryAst)}
    (assembled : countedCandidates deps candidates = .ok counted) (candidate : CountedCandidate) :
    candidate ∈ counted ↔ ∃ relaxed, (candidate.filter, relaxed) ∈ candidates ∧
      candidateRequest deps relaxed = .ok (some candidate.request) := by
  induction candidates generalizing counted with
  | nil =>
    cases assembled
    simp
  | cons first candidates ih =>
    obtain ⟨filter, relaxed⟩ := first
    rw [countedCandidates] at assembled
    cases asked : candidateRequest deps relaxed with
    | error error =>
      rw [asked] at assembled
      cases assembled
    | ok request =>
      simp only [asked] at assembled
      cases others : countedCandidates deps candidates with
      | error error =>
        rw [others] at assembled
        cases assembled
      | ok rest =>
        simp only [others, Except.ok.injEq] at assembled
        subst assembled
        simp only [List.mem_append, ih others, List.mem_cons, List.mem_map, Option.mem_toList]
        constructor
        · rintro (⟨own, is, rfl⟩ | ⟨other, inside, answers⟩)
          · exact ⟨relaxed, .inl rfl, by rw [asked, is]⟩
          · exact ⟨other, .inr inside, answers⟩
        · rintro ⟨other, same | inside, answers⟩
          · cases same
            rw [asked] at answers
            exact .inl ⟨candidate.request, Except.ok.inj answers, rfl⟩
          · exact .inr ⟨other, inside, answers⟩

/-- The conditions of a tree that are left out in turn. -/
def candidatesOf (ast : QueryAst) : List (QueryFilter × QueryAst) :=
  (((ast.filters.take maxRelaxationHints).zipIdx).map
    fun (filter, index) => (filter, without ast index)).filter fun candidate => bindable candidate.2

theorem mem_candidatesOf {relaxed : QueryAst} :
    (filter, relaxed) ∈ candidatesOf ast ↔ ∃ index < maxRelaxationHints,
      ast.filters[index]? = some filter ∧ relaxed = without ast index ∧ bindable relaxed = true := by
  simp only [candidatesOf, List.mem_filter, List.mem_map, Prod.exists, Prod.mk.injEq]
  constructor
  · rintro ⟨⟨own, index, inside, rfl, rfl⟩, accepted⟩
    have there := List.mem_zipIdx_iff_getElem?.mp inside
    obtain ⟨less, _⟩ := List.getElem?_eq_some_iff.mp there
    rw [List.getElem?_take] at there
    split at there
    next few => exact ⟨index, few, there, rfl, accepted⟩
    next => cases there
  · rintro ⟨index, few, there, rfl, accepted⟩
    refine ⟨⟨filter, index, List.mem_zipIdx_iff_getElem?.mpr ?_, rfl, rfl⟩, accepted⟩
    rw [List.getElem?_take, if_pos few, there]

theorem mem_outcomes {outcome : QueryFilter × Except String Nat} :
    outcome ∈ outcomes counted responses ↔ ∃ (i : Nat) (candidate : CountedCandidate),
      counted[i]? = some candidate ∧ outcome = (candidate.filter, countOf responses[i]?) := by
  simp only [outcomes, List.mem_map, Prod.exists]
  constructor
  · rintro ⟨candidate, i, inside, rfl⟩
    exact ⟨i, candidate, List.mem_zipIdx_iff_getElem?.mp inside, rfl⟩
  · rintro ⟨i, candidate, there, rfl⟩
    exact ⟨candidate, i, List.mem_zipIdx_iff_getElem?.mpr there, rfl⟩

-- The counts are exact, candidate by candidate.
theorem count_of_exact (exact_ : Exact elastic deps.multiSearch)
    (answered : deps.multiSearch (counted.map CountedCandidate.request) = .ok responses) {i : Nat}
    {candidate : CountedCandidate} (there : counted[i]? = some candidate)
    (is : countOf responses[i]? = .ok n) :
    n = (found elastic candidate.request.query candidate.request.target).length := by
  obtain ⟨total, item, exactly⟩ := countOf_ok is
  refine exact_ _ responses answered i candidate.request n total ?_ item exactly
  rw [List.getElem?_map, there]
  rfl

/-- A hint is about a candidate and tells what its request finds. -/
theorem mem_hints (exact_ : Exact elastic deps.multiSearch)
    (computed : computeRelaxationHints ast deps = .ok result) {hint : RelaxationHint}
    (inside : hint ∈ result.hints) :
    ∃ (index : Nat) (filter : QueryFilter) (asked : ScopedSearchRequest),
      ast.filters[index]? = some filter ∧ bindable (without ast index) = true ∧
        candidateRequest deps (without ast index) = .ok (some asked) ∧ hint.remove = describe filter ∧
          hint.wouldYield = (found elastic asked.query asked.target).length ∧ hint.wouldYield ≠ 0 := by
  unfold computeRelaxationHints at computed
  simp only at computed
  split at computed
  · cases computed
    cases inside
  · rw [← candidatesOf] at computed
    split at computed
    next => cases computed
    next =>
      cases computed
      cases inside
    next counted some_ assembled =>
      split at computed
      next =>
        cases computed
        cases inside
      next responses answered =>
        have among : hint ∈ (outcomes counted responses).filterMap hintOf := by
          split at computed <;>
          · cases computed
            exact List.mem_mergeSort.mp inside
        obtain ⟨outcome, member, is⟩ := List.mem_filterMap.mp among
        obtain ⟨i, candidate, there, rfl⟩ := mem_outcomes.mp member
        obtain ⟨relaxed, listed, asked⟩ :=
          (mem_countedCandidates assembled candidate).mp (List.mem_of_getElem? there)
        obtain ⟨index, _, position, rfl, accepted⟩ := mem_candidatesOf.mp listed
        cases count : countOf responses[i]? with
        | error reason =>
          rw [count] at is
          cases is
        | ok n =>
          rw [count, hintOf] at is
          split at is
          next => cases is
          next some_ =>
            obtain rfl := Option.some.inj is
            exact ⟨index, candidate.filter, candidate.request, position, accepted, asked, rfl,
              count_of_exact exact_ answered there count, some_⟩

/-- When all candidates are counted, each one that finds something is a hint. -/
theorem hints_complete (exact_ : Exact elastic deps.multiSearch)
    (computed : computeRelaxationHints ast deps = .ok result) (whole : result.truncated = false)
    (complete : result.incomplete = false) (several : 2 ≤ ast.filters.length) {index : Nat}
    (position : ast.filters[index]? = some filter) (accepted : bindable (without ast index) = true)
    (request : candidateRequest deps (without ast index) = .ok (some asked))
    (some_ : (found elastic asked.query asked.target).length ≠ 0) :
    ⟨describe filter, (found elastic asked.query asked.target).length⟩ ∈ result.hints := by
  unfold computeRelaxationHints at computed
  simp only at computed
  rw [if_neg (Nat.not_lt.mpr several)] at computed
  rw [← candidatesOf] at computed
  have few : ast.filters.length ≤ maxRelaxationHints := by
    have is : result.truncated = decide (maxRelaxationHints < ast.filters.length) := by
      split at computed
      next => cases computed
      next =>
        cases computed
        rfl
      next =>
        split at computed
        next =>
          cases computed
          rfl
        next =>
          split at computed <;>
          · cases computed
            rfl
    rw [is] at whole
    simpa using whole
  have less := (List.getElem?_eq_some_iff.mp position).1
  have listed : (filter, without ast index) ∈ candidatesOf ast :=
    mem_candidatesOf.mpr ⟨index, by omega, position, rfl, accepted⟩
  split at computed
  next => cases computed
  next assembled =>
    have member := (mem_countedCandidates assembled ⟨filter, asked⟩).mpr ⟨_, listed, request⟩
    cases member
  next counted _ assembled =>
    have member := (mem_countedCandidates assembled ⟨filter, asked⟩).mpr ⟨_, listed, request⟩
    obtain ⟨i, there⟩ := List.mem_iff_getElem?.mp member
    split at computed
    next =>
      cases computed
      cases complete
    next responses answered =>
      split at computed
      next reasons =>
        cases computed
        refine List.mem_mergeSort.mpr (List.mem_filterMap.mpr ?_)
        refine ⟨_, mem_outcomes.mpr ⟨i, _, there, rfl⟩, ?_⟩
        cases count : countOf responses[i]? with
        | error reason =>
          have unlisted := List.filterMap_eq_nil_iff.mp reasons _ (mem_outcomes.mpr ⟨i, _, there, rfl⟩)
          rw [count] at unlisted
          cases unlisted
        | ok n =>
          have is := count_of_exact exact_ answered there count
          simp only at is
          rw [hintOf, if_neg (by rw [is]; exact some_), is]
      next =>
        cases computed
        cases complete

end Counted

/-! ### Searches -/

section Searches

variable {σ : Type} {registry : Registry} {enabled : Bool} {deps : SearchDeps σ}
  {request : SearchRequest σ} {result : SearchResult σ}

/-- What a search asks the index for. -/
def SearchRequest.searched (request : SearchRequest σ) (deps : SearchDeps σ) :
    Option ScopedSearchRequest :=
  let resolved := resolveSearchTarget request.ast deps.baseTarget
  match resolved.target, deps.resolveNames with
  | some target, .ok resolution =>
      match buildQuery deps.zones resolved.ast resolution request.options with
      | .error _ => none
      | .ok built =>
          match applyMandatoryScopeFilter built.query request.scope with
          | .error _ => none
          | .ok query => some ⟨target, query⟩
  | _, _ => none

/-- All that a search finds, on one page or on many. -/
def SearchRequest.finds (request : SearchRequest σ) (deps : SearchDeps σ) : List StoredDocument :=
  match request.searched deps with
  | none => []
  | some asked => found deps.elastic asked.query asked.target

def hintDeps (request : SearchRequest σ) (deps : SearchDeps σ) (resolution : NameResolution) :
    RelaxationDeps :=
  ⟨deps.zones, deps.multiSearch, deps.baseTarget, request.scope, resolution, request.options⟩

/-- A candidate is assembled as its own search is. -/
theorem searched_of_candidateRequest (names : deps.resolveNames = .ok resolution)
    (made : candidateRequest (hintDeps request deps resolution) request.ast = .ok (some asked)) :
    request.searched deps = some asked := by
  unfold candidateRequest at made
  simp only [hintDeps] at made
  unfold SearchRequest.searched
  simp only [names]
  split at made
  next => cases made
  next target isTarget =>
    simp only [isTarget]
    cases isBuilt : buildQuery deps.zones (resolveSearchTarget request.ast deps.baseTarget).ast
        resolution request.options with
    | error _ => simp [isBuilt] at made
    | ok built =>
      simp only [isBuilt] at made ⊢
      split at made
      next => cases made
      next query isQuery =>
        cases made
        simp only [isQuery]

theorem candidateRequest_of_searched (is : request.searched deps = some asked) :
    ∃ resolution, deps.resolveNames = .ok resolution ∧
      candidateRequest (hintDeps request deps resolution) request.ast = .ok (some asked) := by
  unfold SearchRequest.searched at is
  simp only at is
  split at is
  next target resolution isTarget names =>
    refine ⟨resolution, names, ?_⟩
    unfold candidateRequest
    simp only [hintDeps, isTarget]
    cases isBuilt : buildQuery deps.zones (resolveSearchTarget request.ast deps.baseTarget).ast
        resolution request.options with
    | error _ => simp [isBuilt] at is
    | ok built =>
      simp only [isBuilt] at is ⊢
      split at is
      next => cases is
      next query isQuery =>
        cases is
        simp only [isQuery]
  next => cases is

variable [LinearOrder σ]

theorem length_sorted (elastic : Elastic σ) (query : Query) (sort : List SortCombination)
    (documents : List StoredDocument) :
    (sorted elastic query sort documents).length = documents.length := List.length_mergeSort _

/-- The first page tells how much there is. -/
theorem runPage_first (first : request.cursor = none) (asked : ScopedSearchRequest) :
    ∃ page nextCursor, runPage request deps asked.target asked.query =
      .ok ((found deps.elastic asked.query asked.target).length, page, nextCursor) := by
  unfold runPage
  simp only [resume, first, Option.map_none, Option.getD_none, searchWithPit, length_sorted,
    (deps.elastic.opened asked.target).1]
  exact ⟨_, _, rfl⟩

theorem totalOf_value : (totalOf n).value = 0 ↔ n = 0 := by
  unfold totalOf trackTotalHits
  split <;> simp
  omega

variable (request) in
/-- The total of a search counts what it finds, and when this is nothing there are hints. -/
theorem runSearch_total (first : request.cursor = none) (ran : runSearch request deps = .ok result) :
    result.total = totalOf (request.finds deps).length ∧
      (result.total.value = 0 → relaxationOf request deps deps.resolveNames = .ok result.relaxation) := by
  unfold runSearch at ran
  unfold SearchRequest.finds SearchRequest.searched
  simp only at ran ⊢
  split at ran
  next none_ =>
    simp only [none_]
    split at ran
    next => cases ran
    next relaxation hints =>
      cases ran
      exact ⟨rfl, fun _ => hints⟩
  next target isTarget =>
    simp only [isTarget]
    split at ran
    next => cases ran
    next resolution names =>
      simp only [names]
      cases isBuilt : buildQuery deps.zones (resolveSearchTarget request.ast deps.baseTarget).ast
          resolution request.options with
      | error _ => simp [isBuilt] at ran
      | ok built =>
        simp only [isBuilt] at ran ⊢
        cases isQuery : applyMandatoryScopeFilter built.query request.scope with
        | error _ => simp [isQuery] at ran
        | ok query =>
          simp only [isQuery] at ran ⊢
          obtain ⟨page, nextCursor, isPage⟩ : ∃ page nextCursor,
              runPage request deps target query =
                .ok ((found deps.elastic query target).length, page, nextCursor) :=
            runPage_first first ⟨target, query⟩
          simp only [isPage] at ran
          split at ran
          next zero =>
            split at ran
            next => cases ran
            next relaxation hints =>
              cases ran
              exact ⟨rfl, fun _ => hints⟩
          next some_ =>
            cases ran
            exact ⟨rfl, fun zero => absurd zero some_⟩

variable (request) in
/-- What can be asked for and finds something is found. -/
theorem runSearch_found (first : request.cursor = none) (is : request.searched deps = some asked)
    (some_ : (found deps.elastic asked.query asked.target).length ≠ 0) :
    ∃ result, runSearch request deps = .ok result := by
  unfold SearchRequest.searched at is
  unfold runSearch
  simp only at is ⊢
  split at is
  next target resolution isTarget names =>
    simp only [isTarget, names]
    cases isBuilt : buildQuery deps.zones (resolveSearchTarget request.ast deps.baseTarget).ast
        resolution request.options with
    | error _ => simp [isBuilt] at is
    | ok built =>
      simp only [isBuilt] at is ⊢
      cases isQuery : applyMandatoryScopeFilter built.query request.scope with
      | error _ => simp [isQuery] at is
      | ok query =>
        simp only [isQuery, Option.some.injEq] at is
        cases is
        obtain ⟨page, nextCursor, isPage⟩ : ∃ page nextCursor,
            runPage request deps target query =
              .ok ((found deps.elastic query target).length, page, nextCursor) :=
          runPage_first first ⟨target, query⟩
        simp only at some_
        simp only [isPage, totalOf_value, some_, if_false]
        exact ⟨_, rfl⟩
  next => cases is

end Searches

/-! ### The route -/

section Route

variable {σ : Type} [LinearOrder σ] {registry : Registry} {enabled : Bool} {deps : SearchDeps σ}
  {request : ListRequest σ} {sequence : SequenceContextOutcome} {mergeNumber : MergeNumberRangeOutcome}
  {result : SearchResult σ} {index : Nat}

/-- A request that the route answers with results. -/
structure Accepted (registry : Registry) (enabled : Bool) (deps : SearchDeps σ)
    (request : ListRequest σ) (sequence : SequenceContextOutcome)
    (mergeNumber : MergeNumberRangeOutcome) (result : SearchResult σ) : Prop where
  bound : resolveSequenceContext registry request.ast request.epochParam request.scope = sequence
  settled : sequence = .none ∨ ∃ epoch context, sequence = .bound epoch context
  flag : checkMergeNumberFeatureFlag request.ast enabled = none
  prNumber : ∀ reason, analyzePrNumberBinding request.ast ≠ .invalid reason
  numbers : resolveMergeNumberRangeEpoch registry request.ast request.scope none = mergeNumber
  numbered : mergeNumber = .none ∨ ∃ epoch branch, mergeNumber = .bound epoch branch
  ran : runSearch (request.bind sequence mergeNumber) deps = .ok result

theorem toPrNumberRangeFailure_none {binding : RepositoryBindingAnalysis} :
    toPrNumberRangeFailure binding = none ↔ ∀ reason, binding ≠ .invalid reason := by
  cases binding <;> simp [toPrNumberRangeFailure]

theorem toMergeNumberRangeFailure_none :
    toMergeNumberRangeFailure mergeNumber = none ↔
      mergeNumber = .none ∨ ∃ epoch branch, mergeNumber = .bound epoch branch := by
  cases mergeNumber <;> simp [toMergeNumberRangeFailure]

theorem accepted_of_executeSearch
    (answer : executeSearch registry enabled deps request = .ok (.results sequence mergeNumber result)) :
    Accepted registry enabled deps request sequence mergeNumber result := by
  unfold executeSearch at answer
  simp only at answer
  split at answer
  next => cases answer
  next settled =>
    split at answer
    next => cases answer
    next notStale =>
      split at answer
      next => cases answer
      next flag =>
        split at answer
        next => cases answer
        next prNumber =>
          split at answer
          next => cases answer
          next numbered =>
            split at answer
            next => cases answer
            next ran =>
              cases answer
              rw [resolveMergeNumberRangeEpoch_reuse _ rfl] at numbered ran ⊢
              refine ⟨rfl, ?_, flag, toPrNumberRangeFailure_none.mp prNumber, rfl,
                toMergeNumberRangeFailure_none.mp numbered, ran⟩
              generalize resolveSequenceContext registry request.ast request.epochParam request.scope =
                outcome at settled notStale
              cases outcome with
              | none => exact .inl rfl
              | bound epoch context => exact .inr ⟨epoch, context, rfl⟩
              | stale requested context => exact absurd rfl (notStale requested context)
              | _ => cases settled

theorem Accepted.executeSearch
    (accepted : Accepted registry enabled deps request sequence mergeNumber result) :
    executeSearch registry enabled deps request = .ok (.results sequence mergeNumber result) := by
  obtain ⟨bound, settled, flag, prNumber, numbers, numbered, ran⟩ := accepted
  have reuse := resolveMergeNumberRangeEpoch_reuse sequence bound.symm request.ast
  have prFailure := toPrNumberRangeFailure_none.mpr prNumber
  have failure := toMergeNumberRangeFailure_none.mpr numbered
  unfold Listing.executeSearch
  rcases settled with rfl | ⟨epoch, context, rfl⟩ <;>
    simp only [bound, toSequenceFailure, flag, prFailure, reuse, numbers, failure, ran]

/-- The search without one of the conditions. Without a sequence range it takes no epoch. -/
def ListRequest.leaving (request : ListRequest σ) (index : Nat) : ListRequest σ :=
  { request with
    ast := without request.ast index
    epochParam := if hasSequenceRangeFilter (without request.ast index) then request.epochParam else .absent
    cursor := none }

/-- The route accepts the query without the condition, in the spaces of the query where there are ranges
left, and finds so many documents. -/
def Yields (registry : Registry) (enabled : Bool) (deps : SearchDeps σ) (request : ListRequest σ)
    (sequence : SequenceContextOutcome) (mergeNumber : MergeNumberRangeOutcome) (index n : Nat) : Prop :=
  ∃ sequence' mergeNumber' result',
    executeSearch registry enabled deps (request.leaving index) =
        .ok (.results sequence' mergeNumber' result') ∧
      (hasSequenceRangeFilter (without request.ast index) = true → sequence' = sequence) ∧
      (hasMergeNumberRangeFilter (without request.ast index) = true → mergeNumber' = mergeNumber) ∧
      result'.total = totalOf n ∧
      (((request.leaving index).bind sequence' mergeNumber').finds deps).length = n

-- ── What an outcome says of the analysis ──

theorem not_invalid_of_settled {ast : QueryAst}
    (settled : sequence = .none ∨ ∃ epoch context, sequence = .bound epoch context)
    (is : resolveSequenceContext registry ast epochParam scope = sequence)
    (reason : SequenceBindingProblem) : analyzeSequenceBinding ast ≠ .invalid reason := by
  intro invalid
  rw [resolveSequenceContext, invalid] at is
  rcases settled with rfl | ⟨epoch, context, rfl⟩ <;> cases is

theorem not_invalid_of_numbered {ast : QueryAst} {reuse : Option Reuse}
    (numbered : mergeNumber = .none ∨ ∃ epoch branch, mergeNumber = .bound epoch branch)
    (is : resolveMergeNumberRangeEpoch registry ast scope reuse = mergeNumber)
    (reason : SequenceBindingProblem) : analyzeMergeNumberBinding ast ≠ .invalid reason := by
  intro invalid
  rw [resolveMergeNumberRangeEpoch, invalid] at is
  rcases numbered with rfl | ⟨epoch, branch, rfl⟩ <;> cases is

-- With a range a query is bound.
theorem bound_of_ranged {ast : QueryAst}
    (settled : sequence = .none ∨ ∃ epoch context, sequence = .bound epoch context)
    (is : resolveSequenceContext registry ast epochParam scope = sequence)
    (ranged : hasSequenceRangeFilter ast = true) :
    ∃ repository baseBranch, analyzeSequenceBinding ast = .bound repository baseBranch := by
  have possible := not_invalid_of_settled settled is
  unfold analyzeSequenceBinding at possible ⊢
  rw [if_pos ranged] at possible ⊢
  split at possible
  next => exact absurd rfl (possible _)
  next => exact absurd rfl (possible _)
  next => exact ⟨_, _, rfl⟩
  next => exact absurd rfl (possible _)

theorem candidateRequest_options {ast : QueryAst} (options : BuildQueryOptions)
    (sequence : hasSequenceRangeFilter ast = true →
      base.options.sequenceEpoch = options.sequenceEpoch)
    (mergeNumber : hasMergeNumberRangeFilter ast = true →
      base.options.mergeNumberEpoch = options.mergeNumberEpoch ∧
        base.options.mergeNumberBaseBranch = options.mergeNumberBaseBranch) :
    candidateRequest base ast = candidateRequest { base with options := options } ast := by
  have same : buildQuery base.zones (resolveSearchTarget ast base.baseTarget).ast base.resolution
        base.options =
      buildQuery base.zones (resolveSearchTarget ast base.baseTarget).ast base.resolution options := by
    refine buildQuery_options (fun ranged => sequence ?_) fun ranged => mergeNumber ?_
    · rwa [hasSequenceRangeFilter, hasRangeFilter_target] at ranged
    · rwa [hasMergeNumberRangeFilter, hasRangeFilter_target] at ranged
  unfold candidateRequest
  simp only [same]

-- ── The candidate without the branch ──

theorem admits_scoped {engine : Engine} {fields : Document} {query scopedQuery : Query}
    (made : applyMandatoryScopeFilter query scope = .ok scopedQuery) :
    scopedQuery.admits engine fields = true ↔
      query.admits engine fields = true ∧ (scopeFilter scope).admits engine fields = true := by
  unfold applyMandatoryScopeFilter at made
  split at made
  next => cases made
  next => cases made
  next =>
    cases made
    simp [Query.admits, Query.admitsAll, Query.admitted]

/-- The candidate without the branch finds nothing where the query finds nothing. -/
theorem found_without_base {ast : QueryAst} {values : List Text} {branch : Text}
    {elastic : Elastic σ} {relaxed : ScopedSearchRequest}
    (there : ast.filters[index]? = some (.equality .base false values))
    (all : ∀ value ∈ values, value = branch) (some_ : branch ∈ values)
    (ranged : hasMergeNumberRangeFilter ast = true)
    (named : base.options.mergeNumberBaseBranch = some branch)
    (made : candidateRequest base ast = .ok (some asked))
    (made' : candidateRequest base (without ast index) = .ok (some relaxed))
    (nothing : found elastic asked.query asked.target = []) :
    found elastic relaxed.query relaxed.target = [] := by
  unfold candidateRequest at made made'
  simp only at made made'
  rw [target_without base.baseTarget there rfl] at made'
  split at made
  next => cases made
  next target isTarget =>
    rw [isTarget] at made'
    simp only at made'
    split at made
    next => cases made
    next built isBuilt =>
      split at made
      next => cases made
      next query isQuery =>
        cases made
        split at made'
        next => cases made'
        next built' isBuilt' =>
          split at made'
          next => cases made'
          next query' isQuery' =>
            cases made'
            rw [found, List.filter_eq_nil_iff] at nothing ⊢
            intro document inside matches_
            refine nothing document inside ?_
            simp only [Bool.and_eq_true, decide_eq_true_eq] at matches_ ⊢
            rw [admits_scoped isQuery'] at matches_
            rw [admits_scoped isQuery]
            exact ⟨matches_.1, admits_without_base there all some_ ranged named isBuilt isBuilt'
              matches_.2.1, matches_.2.2⟩

/-- A search that runs has a query, when there is an index left. -/
theorem candidateRequest_of_ran {request : SearchRequest σ} {target : List EntityAlias}
    (ran : runSearch request deps = .ok result) (names : deps.resolveNames = .ok resolution)
    (isTarget : (resolveSearchTarget request.ast deps.baseTarget).target = some target) :
    ∃ asked, candidateRequest (hintDeps request deps resolution) request.ast = .ok (some asked) := by
  unfold runSearch at ran
  unfold candidateRequest
  simp only [isTarget, names] at ran
  simp only [hintDeps, isTarget]
  cases isBuilt : buildQuery deps.zones (resolveSearchTarget request.ast deps.baseTarget).ast
      resolution request.options with
  | error _ => simp [isBuilt] at ran
  | ok built =>
    simp only [isBuilt] at ran ⊢
    cases isQuery : applyMandatoryScopeFilter built.query request.scope with
    | error _ => simp [isQuery] at ran
    | ok query => exact ⟨_, rfl⟩

-- ── A candidate and its own search ──

/-- What a candidate without a range is bound to is nothing, and with one what the query is bound to. -/
theorem leaving_bound {request : ListRequest σ}
    (settled : sequence = .none ∨ ∃ epoch context, sequence = .bound epoch context)
    (is : resolveSequenceContext registry request.ast request.epochParam request.scope = sequence)
    (possible : ∀ reason, analyzeSequenceBinding (without request.ast index) ≠ .invalid reason) :
    resolveSequenceContext registry (request.leaving index).ast (request.leaving index).epochParam
        request.scope =
      if hasSequenceRangeFilter (without request.ast index) then sequence else .none := by
  simp only [ListRequest.leaving]
  split
  next ranged =>
    obtain ⟨repository, baseBranch, bound⟩ :=
      bound_of_ranged settled is (hasRangeFilter_of_without ranged)
    rw [resolveSequenceContext_congr
      ((analyzeSequenceBinding_without bound ranged possible).trans bound.symm), is]
  next free => exact resolveSequenceContext_free (by simpa using free)

/-- A candidate that finds something where the query finds nothing has the numbers of the query. -/
theorem leaving_numbers
    (accepted : Accepted registry enabled deps request sequence mergeNumber result)
    (first : request.cursor = none) (empty : result.total.value = 0)
    (names : deps.resolveNames = .ok resolution)
    (possible : ∀ reason, analyzeMergeNumberBinding (without request.ast index) ≠ .invalid reason)
    (made : candidateRequest (hintDeps (request.bind sequence mergeNumber) deps resolution)
      (without request.ast index) = .ok (some asked))
    (some_ : (found deps.elastic asked.query asked.target).length ≠ 0) :
    resolveMergeNumberRangeEpoch registry (without request.ast index) request.scope none =
      if hasMergeNumberRangeFilter (without request.ast index) then mergeNumber else .none := by
  split
  next ranged =>
    have numbers := accepted.numbers
    have rangedBefore : hasMergeNumberRangeFilter request.ast = true := hasRangeFilter_of_without ranged
    cases binding : analyzeMergeNumberBinding request.ast with
    | none =>
      have never : analyzeMergeNumberBinding request.ast ≠ .none := by
        unfold analyzeMergeNumberBinding
        rw [if_pos rangedBefore]
        split <;> simp
      exact absurd binding never
    | invalid reason =>
      exact absurd binding (not_invalid_of_numbered accepted.numbered numbers reason)
    | repositoryOnly repository =>
      rw [resolveMergeNumberRangeEpoch_congr
        ((analyzeMergeNumberBinding_without_open binding ranged possible).trans binding.symm), numbers]
    | bound repository baseBranch =>
      rcases analyzeMergeNumberBinding_without binding ranged possible with same | lost
      · rw [resolveMergeNumberRangeEpoch_congr (same.trans binding.symm), numbers]
      · -- the branch is still in the terms of the merge numbers, so nothing is found
        obtain ⟨values, there, among, all⟩ :=
          there_of_positiveValues (positiveValues_of_bound_numbers binding).2 lost
        have named : (request.bind sequence mergeNumber).options.mergeNumberBaseBranch =
            some baseBranch := by
          rcases accepted.numbered with none_ | ⟨epoch, branch, is⟩
          · rw [none_, resolveMergeNumberRangeEpoch, binding] at numbers
            simp only at numbers
            split at numbers
            next => cases numbers
            next =>
              unfold bindMergeNumbers at numbers
              split at numbers
              · cases numbers
              · split at numbers <;> cases numbers
          · rw [is] at numbers ⊢
            obtain rfl := resolveMergeNumberRangeEpoch_branch binding numbers
            rfl
        have isTarget : ∃ target,
            (resolveSearchTarget request.ast deps.baseTarget).target = some target := by
          rw [← target_without deps.baseTarget there rfl]
          unfold candidateRequest at made
          simp only [hintDeps] at made
          split at made
          next => cases made
          next target is => exact ⟨target, is⟩
        obtain ⟨target, isTarget⟩ := isTarget
        obtain ⟨asked', made'⟩ := candidateRequest_of_ran accepted.ran names isTarget
        have nothing : found deps.elastic asked'.query asked'.target = [] := by
          have total := (runSearch_total (request.bind sequence mergeNumber) first accepted.ran).1
          rw [total, totalOf_value, SearchRequest.finds, searched_of_candidateRequest names made'] at empty
          exact List.eq_nil_of_length_eq_zero empty
        have none_ := found_without_base there all among rangedBefore named made' made nothing
        rw [none_] at some_
        exact absurd rfl some_
  next free =>
    rw [resolveMergeNumberRangeEpoch, analyzeMergeNumberBinding_free (by simpa using free)]

/-- The options of a candidate are those of its own search, as far as they matter. -/
theorem hintDeps_leaving {sequence' : SequenceContextOutcome}
    {mergeNumber' : MergeNumberRangeOutcome}
    (sameSequence : hasSequenceRangeFilter (without request.ast index) = true → sequence' = sequence)
    (sameNumbers : hasMergeNumberRangeFilter (without request.ast index) = true →
      mergeNumber' = mergeNumber) :
    candidateRequest (hintDeps ((request.leaving index).bind sequence' mergeNumber') deps resolution)
        (without request.ast index) =
      candidateRequest (hintDeps (request.bind sequence mergeNumber) deps resolution)
        (without request.ast index) := by
  refine (candidateRequest_options (request.bind sequence mergeNumber).options ?_ ?_).trans rfl
  · intro ranged
    simp only [hintDeps, SearchRequest.options, ListRequest.bind, sameSequence ranged]
  · intro ranged
    simp only [hintDeps, SearchRequest.options, ListRequest.bind, sameNumbers ranged, and_self]

/-- A candidate that finds something is a search that the route accepts. -/
theorem yields_of_candidate
    (accepted : Accepted registry enabled deps request sequence mergeNumber result)
    (first : request.cursor = none) (empty : result.total.value = 0)
    (names : deps.resolveNames = .ok resolution)
    (bindable_ : bindable (without request.ast index) = true)
    (made : candidateRequest (hintDeps (request.bind sequence mergeNumber) deps resolution)
      (without request.ast index) = .ok (some asked))
    (some_ : (found deps.elastic asked.query asked.target).length ≠ 0) :
    Yields registry enabled deps request sequence mergeNumber index
      (found deps.elastic asked.query asked.target).length := by
  obtain ⟨possibleSequence, possibleNumbers, possiblePr⟩ := bindable_iff.mp bindable_
  have bound := leaving_bound accepted.settled accepted.bound possibleSequence
  have numbers := leaving_numbers accepted first empty names possibleNumbers made some_
  generalize isSequence : (if hasSequenceRangeFilter (without request.ast index) then sequence
    else SequenceContextOutcome.none) = sequence' at bound
  generalize isNumbers : (if hasMergeNumberRangeFilter (without request.ast index) then mergeNumber
    else MergeNumberRangeOutcome.none) = mergeNumber' at numbers
  have sameSequence : hasSequenceRangeFilter (without request.ast index) = true →
      sequence' = sequence := fun ranged => by rw [← isSequence, if_pos ranged]
  have sameNumbers : hasMergeNumberRangeFilter (without request.ast index) = true →
      mergeNumber' = mergeNumber := fun ranged => by rw [← isNumbers, if_pos ranged]
  have searched : ((request.leaving index).bind sequence' mergeNumber').searched deps = some asked :=
    searched_of_candidateRequest names ((hintDeps_leaving sameSequence sameNumbers).trans made)
  obtain ⟨result', ran⟩ := runSearch_found ((request.leaving index).bind sequence' mergeNumber') rfl
    searched some_
  have finds : (((request.leaving index).bind sequence' mergeNumber').finds deps).length =
      (found deps.elastic asked.query asked.target).length := by
    rw [SearchRequest.finds, searched]
  have total := (runSearch_total ((request.leaving index).bind sequence' mergeNumber') rfl ran).1
  refine ⟨sequence', mergeNumber', result', Accepted.executeSearch ⟨bound, ?_, ?_, possiblePr, numbers,
    ?_, ran⟩, sameSequence, sameNumbers, by rw [total, finds], finds⟩
  · rw [← isSequence]
    split
    · exact accepted.settled
    · exact .inl rfl
  · have flag := accepted.flag
    unfold checkMergeNumberFeatureFlag at flag ⊢
    split at flag
    next open_ =>
      refine if_pos ?_
      rw [Bool.or_eq_true, Bool.not_eq_true'] at open_ ⊢
      refine open_.imp_right fun free => ?_
      by_contra ranged
      rw [Bool.not_eq_false] at ranged
      have rangedBefore : hasMergeNumberRangeFilter request.ast = true := hasRangeFilter_of_without ranged
      rw [free] at rangedBefore
      cases rangedBefore
    next => cases flag
  · rw [← isNumbers]
    split
    · exact accepted.numbered
    · exact .inl rfl

/-- What the route finds without a condition, in the same spaces, a candidate finds. -/
theorem candidate_of_yields
    (yields : Yields registry enabled deps request sequence mergeNumber index n) (some_ : n ≠ 0) :
    ∃ resolution asked, deps.resolveNames = .ok resolution ∧
      bindable (without request.ast index) = true ∧
      candidateRequest (hintDeps (request.bind sequence mergeNumber) deps resolution)
        (without request.ast index) = .ok (some asked) ∧
      (found deps.elastic asked.query asked.target).length = n := by
  obtain ⟨sequence', mergeNumber', result', answer, sameSequence, sameNumbers, _, finds⟩ := yields
  obtain ⟨bound, settled, _, prNumber, numbers, numbered, _⟩ := accepted_of_executeSearch answer
  cases searched : ((request.leaving index).bind sequence' mergeNumber').searched deps with
  | none =>
    rw [SearchRequest.finds, searched] at finds
    exact absurd finds.symm some_
  | some asked =>
    obtain ⟨resolution, names, made⟩ := candidateRequest_of_searched searched
    refine ⟨resolution, asked, names, bindable_iff.mpr ⟨not_invalid_of_settled settled bound,
      not_invalid_of_numbered numbered numbers, prNumber⟩,
      (hintDeps_leaving sameSequence sameNumbers).symm.trans made, ?_⟩
    rw [SearchRequest.finds, searched] at finds
    exact finds

/-- Each hint tells what the search without its condition finds. When all candidates of a query with
several conditions could be counted, every condition without which something is found there is a hint. -/
theorem hints_are_searches (registry : Registry) (enabled : Bool) (deps : SearchDeps σ)
    (exact_ : Exact deps.elastic deps.multiSearch) (request : ListRequest σ)
    (first : request.cursor = none) (sequence : SequenceContextOutcome)
    (mergeNumber : MergeNumberRangeOutcome) (result : SearchResult σ)
    (answer : executeSearch registry enabled deps request = .ok (.results sequence mergeNumber result))
    (empty : result.total.value = 0) :
    (∀ hint ∈ result.relaxation.hints, ∃ (index : Nat) (filter : QueryFilter),
      request.ast.filters[index]? = some filter ∧ hint.remove = describe filter ∧
        Yields registry enabled deps request sequence mergeNumber index hint.wouldYield) ∧
    (result.relaxation.truncated = false → result.relaxation.incomplete = false →
      2 ≤ request.ast.filters.length → ∀ (index : Nat) (filter : QueryFilter) (n : Nat),
        request.ast.filters[index]? = some filter →
          Yields registry enabled deps request sequence mergeNumber index n → n ≠ 0 →
            ⟨describe filter, n⟩ ∈ result.relaxation.hints) := by
  have accepted := accepted_of_executeSearch answer
  have relaxation := (runSearch_total (request.bind sequence mergeNumber) first accepted.ran).2 empty
  unfold relaxationOf at relaxation
  constructor
  · intro hint inside
    split at relaxation
    next =>
      obtain is := Except.ok.inj relaxation
      rw [← is] at inside
      cases inside
    next resolution names =>
      split at relaxation
      next computed isComputed =>
        obtain rfl := Except.ok.inj relaxation
        obtain ⟨index, filter, asked, there, bindable_, made, is, count, some_⟩ :=
          mem_hints exact_ isComputed inside
        refine ⟨index, filter, there, is, ?_⟩
        rw [count] at some_ ⊢
        exact yields_of_candidate accepted first empty names bindable_ made some_
      next => cases relaxation
      next =>
        obtain is := Except.ok.inj relaxation
        rw [← is] at inside
        cases inside
  · intro whole complete several index filter n there yields some_
    obtain ⟨resolution, asked, names, bindable_, made, rfl⟩ := candidate_of_yields yields some_
    rw [names] at relaxation
    simp only at relaxation
    split at relaxation
    next computed isComputed =>
      obtain rfl := Except.ok.inj relaxation
      exact hints_complete exact_ isComputed whole complete several there bindable_ made some_
    next => cases relaxation
    next =>
      obtain is := Except.ok.inj relaxation
      rw [← is] at complete
      cases complete

end Route

/-! ### Searches of a small index -/

def aliasMark : EntityAlias → Char
  | .pullRequests => 'p'
  | .commits => 'c'
  | .links => 'l'
  | .releases => 'r'

def markedAlias : Char → EntityAlias
  | 'p' => .pullRequests
  | 'c' => .commits
  | 'l' => .links
  | _ => .releases

theorem markedAlias_aliasMark (index : EntityAlias) : markedAlias (aliasMark index) = index := by
  cases index <;> rfl

/-- An index whose points in time are named by what they are opened on. -/
def plainElastic (documents : List StoredDocument) : Elastic Int where
  engine := silentEngine
  docValue _ _ := none
  score _ _ := 0
  documents := documents
  openPointInTime target := String.ofList ('#' :: target.map aliasMark)
  renewed _ := none
  indices id := (id.toList.drop 1).map markedAlias
  opened target := by
    refine ⟨?_, fun empty => ?_⟩
    · rw [String.toList_ofList, List.drop_one, List.tail_cons, List.map_map]
      exact (List.map_congr_left fun index _ => markedAlias_aliasMark index).trans (List.map_id _)
    · simpa using congrArg String.toList empty
  kept _ _ renewed := by cases renewed

def plainDeps (documents : List StoredDocument) : SearchDeps Int where
  elastic := plainElastic documents
  zones := fun _ => none
  resolveNames := .ok emptyResolution
  multiSearch requests := .ok (requests.map fun request =>
    .answer 0 false (some (.number (found (plainElastic documents) request.query request.target).length)))
  baseTarget := [.pullRequests, .commits]
  sign _ := []
  hash := id
  now := 0

theorem plainDeps_exact (documents : List StoredDocument) :
    Exact (plainDeps documents).elastic (plainDeps documents).multiSearch := by
  intro requests responses answered i asked n total there item is
  obtain rfl := Except.ok.inj answered
  rw [List.getElem?_map, there] at item
  simp only [Option.map_some, Option.some.injEq, MsearchItem.answer.injEq, true_and] at item
  obtain rfl := item
  rcases is with is | is
  · exact (HitsTotal.number.inj is).symm
  · cases is

def kimDocument : StoredDocument where
  docId := "1".toList
  index := .pullRequests
  fields name :=
    if name = "author" then [.string "kim"]
    else if name = "labels" then [.string "bug"]
    else if name = "repository_id" then [.number 1]
    else []

def plainRequest (filters : List QueryFilter) : ListRequest Int where
  ast := ⟨filters, none⟩
  epochParam := .absent
  scope := .explicit [1]
  scopeVersion := 1
  sortKey := .mergeSeq
  order := .desc
  size := 25
  cursor := none
  cursorBinding := none


/-- What is shown of an answer without its items. -/
def shown : Except SearchFailure (SearchAnswer Int) →
    Option (SequenceContextOutcome × MergeNumberRangeOutcome × Total × RelaxationResult)
  | .ok (.results sequence mergeNumber result) =>
      some (sequence, mergeNumber, result.total, result.relaxation)
  | _ => none

theorem of_shown {answer : Except SearchFailure (SearchAnswer Int)} {sequence : SequenceContextOutcome}
    {mergeNumber : MergeNumberRangeOutcome} {total : Total} {relaxation : RelaxationResult}
    (is : shown answer = some (sequence, mergeNumber, total, relaxation)) :
    ∃ result, answer = .ok (.results sequence mergeNumber result) ∧ result.total = total ∧
      result.relaxation = relaxation := by
  unfold shown at is
  split at is
  next result =>
    simp only [Option.some.injEq, Prod.mk.injEq] at is
    obtain ⟨rfl, rfl, rfl, rfl⟩ := is
    exact ⟨result, rfl, rfl, rfl⟩
  next => cases is

/-- Nobody has this label on a document of this author. -/
def fruitless : ListRequest Int :=
  plainRequest [.equality .author false ["lee".toList], .equality .label false ["bug".toList]]

theorem hints_are_searches_fruitless :
    ∃ result, executeSearch ⟨[], []⟩ true (plainDeps [kimDocument]) fruitless =
        .ok (.results .none .none result) ∧
      result.relaxation.hints = [⟨"author:lee".toList, 1⟩] ∧
      ∀ hint ∈ result.relaxation.hints, ∃ (index : Nat) (filter : QueryFilter),
        fruitless.ast.filters[index]? = some filter ∧ hint.remove = describe filter ∧
          Yields ⟨[], []⟩ true (plainDeps [kimDocument]) fruitless .none .none index hint.wouldYield := by
  have is : shown (executeSearch ⟨[], []⟩ true (plainDeps [kimDocument]) fruitless) =
      some (.none, .none, ⟨0, "eq"⟩, ⟨[⟨"author:lee".toList, 1⟩], false, false, none⟩) := by
    decide +kernel
  obtain ⟨result, answer, total, relaxation⟩ := of_shown is
  exact ⟨result, answer, by rw [relaxation],
    (hints_are_searches ⟨[], []⟩ true (plainDeps [kimDocument]) (plainDeps_exact _) fruitless rfl .none
      .none result answer (by rw [total])).1⟩

/-- Every condition is a hint without which something is found, for queries with so many of them. -/
def AllHinted (conditions : Nat) : Prop :=
  ∀ (registry : Registry) (enabled : Bool) (deps : SearchDeps Int), Exact deps.elastic deps.multiSearch →
    ∀ request : ListRequest Int, request.ast.filters.length = conditions → request.cursor = none →
    ∀ sequence mergeNumber result,
      executeSearch registry enabled deps request = .ok (.results sequence mergeNumber result) →
      result.total.value = 0 → result.relaxation.truncated = false →
      result.relaxation.incomplete = false →
      ∀ (index : Nat) (filter : QueryFilter), request.ast.filters[index]? = some filter →
      ∀ sequence' mergeNumber' result', executeSearch registry enabled deps (request.leaving index) =
          .ok (.results sequence' mergeNumber' result') → result'.total.value ≠ 0 →
        ∃ hint ∈ result.relaxation.hints, hint.remove = describe filter

def mainDocument : StoredDocument where
  docId := "1".toList
  index := .pullRequests
  fields name :=
    if name = "repository" then [.string "a/b"]
    else if name = "base_branch" then [.string "main"]
    else if name = "merge_number" then [.number 3]
    else if name = "merge_number_epoch" then [.number 1]
    else if name = "repository_id" then [.number 1]
    else []

/-- A repository that tracks `main` and has tracked another branch before. -/
def movedRegistry : Registry where
  repositories := [⟨⟨1, "a", "b", 1, .pub, []⟩, ["main".toList]⟩]
  spaces := [⟨1, "main".toList, 1, .ok, 3⟩, ⟨1, "old".toList, 1, .ok, 2⟩]

def movedRequest : ListRequest Int :=
  plainRequest [.equality .repo false ["a/b".toList], .equality .base false ["old".toList],
    .numeric .mnum false 1 5]

/-- A single condition is no hint, and a branch is none whose absence would bind the query to another one. -/
theorem not_allHinted : ¬ AllHinted 1 ∧ ¬ AllHinted 3 := by
  constructor
  · intro all
    have is : shown (executeSearch ⟨[], []⟩ true (plainDeps [kimDocument])
        (plainRequest [.equality .author false ["lee".toList]])) =
          some (.none, .none, ⟨0, "eq"⟩, noRelaxation) := by decide +kernel
    have is' : shown (executeSearch ⟨[], []⟩ true (plainDeps [kimDocument])
        ((plainRequest [.equality .author false ["lee".toList]]).leaving 0)) =
          some (.none, .none, ⟨1, "eq"⟩, noRelaxation) := by decide +kernel
    obtain ⟨result, answer, total, relaxation⟩ := of_shown is
    obtain ⟨result', answer', total', _⟩ := of_shown is'
    obtain ⟨hint, inside, _⟩ := all _ _ _ (plainDeps_exact _) _ rfl rfl _ _ _ answer (by rw [total])
      (by rw [relaxation]; rfl) (by rw [relaxation]; rfl) 0 _ rfl _ _ _ answer' (by rw [total']; decide)
    rw [relaxation] at inside
    cases inside
  · intro all
    have is : shown (executeSearch movedRegistry true (plainDeps [mainDocument]) movedRequest) =
        some (.none, .bound 1 "old".toList, ⟨0, "eq"⟩, noRelaxation) := by decide +kernel
    have is' : shown (executeSearch movedRegistry true (plainDeps [mainDocument])
        (movedRequest.leaving 1)) =
          some (.none, .bound 1 "main".toList, ⟨1, "eq"⟩, noRelaxation) := by decide +kernel
    obtain ⟨result, answer, total, relaxation⟩ := of_shown is
    obtain ⟨result', answer', total', _⟩ := of_shown is'
    obtain ⟨hint, inside, _⟩ := all _ _ _ (plainDeps_exact _) _ rfl rfl _ _ _ answer (by rw [total])
      (by rw [relaxation]; rfl) (by rw [relaxation]; rfl) 1 _ rfl _ _ _ answer' (by rw [total']; decide)
    rw [relaxation] at inside
    cases inside

end PrSearch.Search.Listing
