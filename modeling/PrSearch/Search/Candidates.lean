import PrSearch.Search.Matching
import PrSearch.Search.Routes

/-! # Candidates are searches of their own

The query without one of its conditions is bound to the same space as the query itself, as long as it is
not refused, with one exception: where merge numbers are left without a branch, another one may be taken.
The candidate without the branch finds nothing that the query itself has not found.
-/
namespace PrSearch.Search.Listing

open Index Query Authz

variable {filter : QueryFilter}

/-! ### The tree without a condition -/

section Without

variable {ast : QueryAst} {index : Nat} {key : EqualityKey} {repository baseBranch value : Text}

theorem mem_without (inside : filter ∈ (without ast index).filters) : filter ∈ ast.filters := List.mem_of_mem_eraseIdx inside

variable (index) in
-- What is lost is what is left out.
theorem mem_without_or (inside : filter ∈ ast.filters) :
    ast.filters[index]? = some filter ∨ filter ∈ (without ast index).filters := by
  obtain ⟨i, there⟩ := List.mem_iff_getElem?.mp inside
  by_cases same : i = index
  · exact .inl (same ▸ there)
  · exact .inr (List.mem_eraseIdx_iff_getElem?.mpr ⟨i, same, there⟩)

theorem hasRangeFilter_of_without {key : NumericRangeKey}
    (ranged : hasRangeFilter (without ast index) key = true) : hasRangeFilter ast key = true := by
  rw [hasRangeFilter, List.any_eq_true] at ranged ⊢
  obtain ⟨filter, inside, is⟩ := ranged
  exact ⟨filter, mem_without inside, is⟩

theorem positiveValues_subset :
    positiveValues (without ast index) key ⊆ positiveValues ast key := by
  intro value among
  obtain ⟨values, inside, is⟩ := mem_positiveValues.mp among
  exact mem_positiveValues.mpr ⟨values, mem_without inside, is⟩

theorem positiveValues_nodup : (positiveValues ast key).Nodup := List.nodup_dedup _

variable (index) in
/-- Of a single value it is this one or none. -/
theorem positiveValues_without (only : positiveValues ast key = [value]) :
    positiveValues (without ast index) key = [value] ∨ positiveValues (without ast index) key = [] := by
  have all : ∀ other ∈ positiveValues (without ast index) key, other = value := by
    intro other among
    have member := positiveValues_subset among
    rw [only] at member
    exact List.mem_singleton.mp member
  have apart : (positiveValues (without ast index) key).Nodup := positiveValues_nodup
  cases values : positiveValues (without ast index) key with
  | nil => exact .inr rfl
  | cons first rest =>
    rw [values] at all apart
    cases rest with
    | nil => exact .inl (by rw [all first List.mem_cons_self])
    | cons second rest =>
      have same : first = second := by rw [all first (by simp), all second (by simp)]
      simp [same] at apart

/-- The condition that takes the last value of a key with it has no other values. -/
theorem there_of_positiveValues (only : positiveValues ast key = [value])
    (none_ : positiveValues (without ast index) key = []) :
    ∃ values, ast.filters[index]? = some (.equality key false values) ∧ value ∈ values ∧
      ∀ other ∈ values, other = value := by
  have among : value ∈ positiveValues ast key := by rw [only]; exact List.mem_singleton.mpr rfl
  obtain ⟨values, inside, is⟩ := mem_positiveValues.mp among
  rcases mem_without_or index inside with there | kept
  · refine ⟨values, there, is, fun other member => ?_⟩
    have one : other ∈ positiveValues ast key := mem_positiveValues.mpr ⟨values, inside, member⟩
    rw [only] at one
    exact List.mem_singleton.mp one
  · have left : value ∈ positiveValues (without ast index) key :=
      mem_positiveValues.mpr ⟨values, kept, is⟩
    rw [none_] at left
    cases left

end Without

/-! ### Bindings -/

section Bindings

variable {ast : QueryAst} {index : Nat} {repository baseBranch : Text}

theorem bindable_iff : bindable ast = true ↔
    (∀ reason, analyzeSequenceBinding ast ≠ .invalid reason) ∧
      (∀ reason, analyzeMergeNumberBinding ast ≠ .invalid reason) ∧
        ∀ reason, analyzePrNumberBinding ast ≠ .invalid reason := by
  unfold bindable
  cases analyzeSequenceBinding ast <;> cases analyzeMergeNumberBinding ast <;>
    cases analyzePrNumberBinding ast <;> simp

theorem analyzeSequenceBinding_free (free : hasSequenceRangeFilter ast = false) :
    analyzeSequenceBinding ast = .none := by
  rw [analyzeSequenceBinding, free]
  rfl

theorem analyzeMergeNumberBinding_free (free : hasMergeNumberRangeFilter ast = false) :
    analyzeMergeNumberBinding ast = .none := by
  rw [analyzeMergeNumberBinding, free]
  rfl

/-- With a range left a candidate that is not refused names the same space. -/
theorem analyzeSequenceBinding_without (bound : analyzeSequenceBinding ast = .bound repository baseBranch)
    (ranged : hasSequenceRangeFilter (without ast index) = true)
    (accepted : ∀ reason, analyzeSequenceBinding (without ast index) ≠ .invalid reason) :
    analyzeSequenceBinding (without ast index) = .bound repository baseBranch := by
  obtain ⟨repositories, branches⟩ := positiveValues_of_bound bound
  unfold analyzeSequenceBinding at accepted ⊢
  rw [if_pos ranged] at accepted ⊢
  rcases positiveValues_without index repositories with r | r <;>
    rcases positiveValues_without index branches with b | b <;>
    simp [r, b] at accepted ⊢

/-- The values of the conditions that a merge number binding is made of. -/
theorem positiveValues_of_bound_numbers
    (bound : analyzeMergeNumberBinding ast = .bound repository baseBranch) :
    positiveValues ast .repo = [repository] ∧ positiveValues ast .base = [baseBranch] := by
  unfold analyzeMergeNumberBinding at bound
  split at bound
  · split at bound
    · cases bound
    · cases bound
    next repositories branches =>
      cases bound
      exact ⟨repositories, branches⟩
    · cases bound
  · cases bound

theorem positiveValues_of_repositoryOnly
    (open_ : analyzeMergeNumberBinding ast = .repositoryOnly repository) :
    positiveValues ast .repo = [repository] ∧ positiveValues ast .base = [] := by
  unfold analyzeMergeNumberBinding at open_
  split at open_
  · split at open_
    · cases open_
    next repositories branches =>
      cases open_
      exact ⟨repositories, branches⟩
    · cases open_
    · cases open_
  · cases open_

/-- A candidate with merge numbers names the same space, or it has lost the branch. -/
theorem analyzeMergeNumberBinding_without
    (bound : analyzeMergeNumberBinding ast = .bound repository baseBranch)
    (ranged : hasMergeNumberRangeFilter (without ast index) = true)
    (accepted : ∀ reason, analyzeMergeNumberBinding (without ast index) ≠ .invalid reason) :
    analyzeMergeNumberBinding (without ast index) = .bound repository baseBranch ∨
      positiveValues (without ast index) .base = [] := by
  obtain ⟨repositories, branches⟩ := positiveValues_of_bound_numbers bound
  unfold analyzeMergeNumberBinding at accepted ⊢
  rw [if_pos ranged] at accepted ⊢
  rcases positiveValues_without index repositories with r | r <;>
    rcases positiveValues_without index branches with b | b <;>
    simp [r, b] at accepted ⊢

theorem analyzeMergeNumberBinding_without_open
    (open_ : analyzeMergeNumberBinding ast = .repositoryOnly repository)
    (ranged : hasMergeNumberRangeFilter (without ast index) = true)
    (accepted : ∀ reason, analyzeMergeNumberBinding (without ast index) ≠ .invalid reason) :
    analyzeMergeNumberBinding (without ast index) = .repositoryOnly repository := by
  obtain ⟨repositories, branches⟩ := positiveValues_of_repositoryOnly open_
  have none_ : positiveValues (without ast index) .base = [] := by
    refine List.eq_nil_iff_forall_not_mem.mpr fun value among => ?_
    have member := positiveValues_subset among
    rw [branches] at member
    cases member
  unfold analyzeMergeNumberBinding at accepted ⊢
  rw [if_pos ranged] at accepted ⊢
  rcases positiveValues_without index repositories with r | r <;>
    simp [r, none_] at accepted ⊢

end Bindings

variable {slug : RepositorySlug} {reuse : Option Reuse} {clauses : Clauses}
  {filters : List QueryFilter} {built : BuiltQuery} {left : QueryAst}

/-! ### What the route finds for a candidate -/

section Resolved

variable {registry : Registry} {ast : QueryAst} {index : Nat} {scope : AccessScope}
  {epochParam : EpochParam} {epoch : Int} {context : SequenceContext}
  {repository baseBranch : Text}

theorem resolveSequenceContext_congr {other : QueryAst}
    (same : analyzeSequenceBinding other = analyzeSequenceBinding ast) :
    resolveSequenceContext registry other epochParam scope =
      resolveSequenceContext registry ast epochParam scope := by
  rw [resolveSequenceContext, resolveSequenceContext, same]

theorem resolveSequenceContext_free (free : hasSequenceRangeFilter ast = false) :
    resolveSequenceContext registry ast .absent scope = .none := by
  rw [resolveSequenceContext, analyzeSequenceBinding_free free]
  rfl

/-- A bound query names a space that is there, and the parameter agrees with its epoch. -/
theorem resolveSequenceContext_bound
    (bound : resolveSequenceContext registry ast epochParam scope = .bound epoch context) :
    ∃ space, analyzeSequenceBinding ast = .bound context.repository context.baseBranch ∧
      lookupSpace registry context.repository context.baseBranch scope = some space ∧
      space.seqEpoch = epoch ∧ context = toContext space context.repository := by
  unfold resolveSequenceContext at bound
  split at bound
  next => split at bound <;> cases bound
  next => split at bound <;> cases bound
  next => cases bound
  next repository baseBranch binding =>
    split at bound
    next => cases bound
    next =>
      split at bound
      next => cases bound
      next space located =>
        have branch : space.baseBranch = baseBranch := by
          unfold lookupSpace at located
          split at located
          next => cases located
          next slug _ =>
            unfold resolveSpace at located
            split at located
            next resolved =>
              simp only at resolved
              split at resolved
              · cases resolved
              · cases resolved
              · split at resolved
                · cases resolved
                · cases resolved
                  cases located
                  rfl
            next => cases located
        have given : SequenceContextOutcome.bound space.seqEpoch (toContext space repository) =
            .bound epoch context := by
          split at bound
          next =>
            split at bound
            · cases bound
            · exact bound
          next => exact bound
        injection given with isEpoch isContext
        subst isEpoch isContext
        refine ⟨space, ?_, ?_, rfl, rfl⟩
        · rw [binding]
          simp only [toContext, branch]
        · simp only [toContext, branch]
          exact located

theorem lookupSpace_of_slug {space : ResolvedSpace}
    (parsed : parseRepositorySlug repository = some slug)
    (located : lookupSpace registry repository baseBranch scope = some space) :
    resolveSpace registry slug baseBranch scope = .ok space := by
  rw [lookupSpace, parsed] at located
  simp only at located
  split at located
  next there =>
    cases located
    exact there
  next => cases located

/-- A space that is already known is the one that would be read. -/
theorem bindMergeNumbers_reuse (parsed : parseRepositorySlug repository = some slug)
    (sequence : SequenceContextOutcome)
    (is : sequence = resolveSequenceContext registry ast epochParam scope) :
    bindMergeNumbers registry scope sequence.reuse repository slug baseBranch =
      bindMergeNumbers registry scope none repository slug baseBranch := by
  unfold bindMergeNumbers
  split
  next known kept =>
    cases sequence with
    | bound epoch context =>
      obtain ⟨space, _, located, isEpoch, isContext⟩ := resolveSequenceContext_bound is.symm
      rw [Option.filter_eq_some_iff] at kept
      obtain ⟨reuse, same⟩ := kept
      cases reuse
      simp only [Bool.and_eq_true, decide_eq_true_eq] at same
      rw [same.1, same.2] at located
      simp only [Option.filter_none, lookupSpace_of_slug parsed located]
      rw [isContext]
      rfl
    | _ => simp [SequenceContextOutcome.reuse] at kept
  next => rfl

/-- What is bound does not depend on the space that is already known. -/
theorem resolveMergeNumberRangeEpoch_reuse (sequence : SequenceContextOutcome)
    (is : sequence = resolveSequenceContext registry ast epochParam scope) (other : QueryAst) :
    resolveMergeNumberRangeEpoch registry other scope sequence.reuse =
      resolveMergeNumberRangeEpoch registry other scope none := by
  unfold resolveMergeNumberRangeEpoch
  cases analyzeMergeNumberBinding other with
  | none => rfl
  | invalid reason => rfl
  | bound repository baseBranch =>
    dsimp only
    cases parsed : parseRepositorySlug repository with
    | none => rfl
    | some slug => exact bindMergeNumbers_reuse parsed sequence is
  | repositoryOnly repository =>
    dsimp only
    cases parsed : parseRepositorySlug repository with
    | none => rfl
    | some slug =>
      dsimp only
      split
      next row =>
        split
        next only => exact bindMergeNumbers_reuse parsed sequence is
        next => rfl
      next => rfl

theorem resolveMergeNumberRangeEpoch_congr {other : QueryAst}
    (same : analyzeMergeNumberBinding other = analyzeMergeNumberBinding ast) (reuse : Option Reuse) :
    resolveMergeNumberRangeEpoch registry other scope reuse =
      resolveMergeNumberRangeEpoch registry ast scope reuse := by
  rw [resolveMergeNumberRangeEpoch, resolveMergeNumberRangeEpoch, same]

theorem bindMergeNumbers_bound {repository branch branch' : Text}
    (bound : bindMergeNumbers registry scope reuse repository slug branch = .bound epoch branch') :
    branch' = branch := by
  unfold bindMergeNumbers at bound
  split at bound
  next =>
    cases bound
    rfl
  next =>
    split at bound
    next =>
      cases bound
      rfl
    next => cases bound

/-- A binding with a branch keeps it. -/
theorem resolveMergeNumberRangeEpoch_branch {branch : Text}
    (binding : analyzeMergeNumberBinding ast = .bound repository baseBranch)
    (bound : resolveMergeNumberRangeEpoch registry ast scope reuse = .bound epoch branch) :
    branch = baseBranch := by
  rw [resolveMergeNumberRangeEpoch, binding] at bound
  simp only at bound
  split at bound
  next => cases bound
  next => exact bindMergeNumbers_bound bound

end Resolved

/-! ### What the query of a candidate matches -/

section Queries

variable {engine : Engine} {zones : Zones} {resolution : NameResolution}
  {options other : BuildQueryOptions} {fields : Document} {ast : QueryAst} {index : Nat}

variable (engine zones resolution fields) in
/-- The clause of a condition decides as its sign wants. -/
def Passes (filter : QueryFilter) : Prop :=
  ∃ built, toClause zones resolution filter = .ok built ∧
    (built.query.admits engine fields = true ↔ filter.isNegated = false)

theorem admit_add {next : Clauses} (added : clauses.add zones resolution filter = .ok next) :
    next.Admit engine fields ↔ clauses.Admit engine fields ∧
      Passes engine zones resolution fields filter := by
  obtain ⟨built, made, rfl⟩ := map_ok_iff.mp added
  have passes : Passes engine zones resolution fields filter ↔
      (built.query.admits engine fields = true ↔ filter.isNegated = false) := by
    constructor
    · rintro ⟨built', made', decides⟩
      obtain rfl := Except.ok.inj (made.symm.trans made')
      exact decides
    · exact fun decides => ⟨built, made, decides⟩
  rw [passes]
  cases filter.isNegated with
  | true => simp [Clauses.Admit, or_imp, forall_and, and_assoc]
  | false =>
    simp only [Clauses.Admit, Bool.false_eq_true, if_false, List.mem_append, List.mem_singleton, or_imp,
      forall_and, forall_eq, iff_true]
    exact and_right_comm

variable (engine fields) in
theorem admit_addAll_iff {last : Clauses}
    (added : addAll zones resolution clauses filters = .ok last) :
    last.Admit engine fields ↔ clauses.Admit engine fields ∧
      ∀ filter ∈ filters, Passes engine zones resolution fields filter := by
  induction filters generalizing clauses with
  | nil =>
    cases added
    simp
  | cons filter rest ih =>
    obtain ⟨next, first, later⟩ := bind_ok_iff.mp added
    rw [ih later, admit_add first, List.forall_mem_cons, and_assoc]

variable (engine fields) in
/-- A built query matches what its parts match. -/
theorem admits_buildQuery_iff (made : buildQuery zones ast resolution options = .ok built) :
    ∃ sequence mergeNumber, sequenceTerms ast options = .ok sequence ∧
      mergeNumberTerms ast options = .ok mergeNumber ∧
      (built.query.admits engine fields = true ↔
        ((∀ clause ∈ sequence ++ mergeNumber, clause.admits engine fields = true) ∧
          ∀ filter ∈ ast.filters, Passes engine zones resolution fields filter) ∧
        (∀ clause ∈ (textClauses ast).1, clause.admits engine fields = true) ∧
          ∀ clause ∈ (textClauses ast).2, ¬ clause.admits engine fields = true) := by
  obtain ⟨sequence, first, made⟩ := bind_ok_iff.mp made
  obtain ⟨mergeNumber, second, made⟩ := bind_ok_iff.mp made
  obtain ⟨clauses, added, rfl⟩ := map_ok_iff.mp made
  refine ⟨sequence, mergeNumber, first, second, ?_⟩
  have filters := admit_addAll_iff engine fields added
  rw [admits_assemble]
  simp only [Clauses.Admit, List.mem_append, or_imp, forall_and, List.not_mem_nil,
    false_implies, implies_true, and_true] at filters ⊢
  constructor
  · rintro ⟨must, kept, excluded, silent⟩
    exact ⟨filters.mp ⟨kept, excluded⟩, must, silent⟩
  · rintro ⟨parts, must, silent⟩
    obtain ⟨kept, excluded⟩ := filters.mpr parts
    exact ⟨must, kept, excluded, silent⟩

/-- Epochs and a branch matter as far as there are ranges that need them. -/
theorem buildQuery_options
    (sequence : hasSequenceRangeFilter ast = true → options.sequenceEpoch = other.sequenceEpoch)
    (mergeNumber : hasMergeNumberRangeFilter ast = true →
      options.mergeNumberEpoch = other.mergeNumberEpoch ∧
        options.mergeNumberBaseBranch = other.mergeNumberBaseBranch) :
    buildQuery zones ast resolution options = buildQuery zones ast resolution other := by
  have first : sequenceTerms ast options = sequenceTerms ast other := by
    unfold sequenceTerms
    split
    next ranged => rw [sequence ranged]
    next => rfl
  have second : mergeNumberTerms ast options = mergeNumberTerms ast other := by
    unfold mergeNumberTerms
    split
    next ranged => rw [(mergeNumber ranged).1, (mergeNumber ranged).2]
    next => rfl
  rw [buildQuery, buildQuery, first, second]

-- The terms are of the options, whatever the conditions are.
theorem sequenceTerms_congr (same : hasSequenceRangeFilter left = hasSequenceRangeFilter ast) :
    sequenceTerms left options = sequenceTerms ast options := by
  rw [sequenceTerms, sequenceTerms, same]

theorem mergeNumberTerms_congr
    (same : hasMergeNumberRangeFilter left = hasMergeNumberRangeFilter ast) :
    mergeNumberTerms left options = mergeNumberTerms ast options := by
  rw [mergeNumberTerms, mergeNumberTerms, same]

theorem textClauses_congr (same : left.text = ast.text) : textClauses left = textClauses ast := by
  rw [textClauses, textClauses, same]

end Queries

section Branch

variable {engine : Engine} {zones : Zones} {resolution : NameResolution}
  {options : BuildQueryOptions} {fields : Document} {ast : QueryAst} {index : Nat} {branch : Text}
  {values : List Text} {base : List EntityAlias}

theorem foldl_narrow_eraseIdx (there : filters[index]? = some filter)
    (other : isKind filter = false) (allowed : List EntityAlias) :
    (filters.eraseIdx index).foldl narrow allowed = filters.foldl narrow allowed := by
  have stays : ∀ allowed, narrow allowed filter = allowed := by
    intro allowed
    unfold narrow
    split
    · cases other
    · rfl
  induction filters generalizing index allowed with
  | nil => cases there
  | cons first filters ih =>
    cases index with
    | zero =>
      obtain rfl : first = filter := Option.some.inj there
      simp only [List.eraseIdx_cons_zero, List.foldl_cons, stays]
    | succ index =>
      simp only [List.eraseIdx_cons_succ, List.foldl_cons]
      exact ih there _

theorem any_isKind_eraseIdx (there : filters[index]? = some filter) (other : isKind filter = false) :
    (filters.eraseIdx index).any isKind = filters.any isKind := by
  induction filters generalizing index with
  | nil => cases there
  | cons first filters ih =>
    cases index with
    | zero =>
      obtain rfl : first = filter := Option.some.inj there
      simp [other]
    | succ index =>
      simp only [List.eraseIdx_cons_succ, List.any_cons]
      rw [ih there]

variable (base) in
/-- Without a condition on anything but the kind the indices are the same. -/
theorem target_without (there : ast.filters[index]? = some filter) (other : isKind filter = false) :
    (resolveSearchTarget (without ast index) base).target = (resolveSearchTarget ast base).target := by
  unfold resolveSearchTarget without
  rw [any_isKind_eraseIdx there other]
  split
  · dsimp only
    rw [foldl_narrow_eraseIdx there other]
  · rfl

theorem hasRangeFilter_without_equality {key : NumericRangeKey} {name : EqualityKey} {negated : Bool}
    (there : ast.filters[index]? = some (.equality name negated values)) :
    hasRangeFilter (without ast index) key = hasRangeFilter ast key := by
  rw [Bool.eq_iff_iff]
  constructor
  · exact hasRangeFilter_of_without
  · intro ranged
    rw [hasRangeFilter, List.any_eq_true] at ranged ⊢
    obtain ⟨filter, inside, is⟩ := ranged
    rcases mem_without_or index inside with same | kept
    · rw [there] at same
      cases same
      simp [QueryFilter.key] at is
    · exact ⟨filter, kept, is⟩

theorem passes_base (all : ∀ value ∈ values, value = branch) (some_ : branch ∈ values) :
    Passes engine zones resolution fields (.equality .base false values) ↔
      text branch ∈ fields "base_branch" := by
  have clause : toClause zones resolution (.equality .base false values) =
      .ok ⟨termsClause "base_branch" values, []⟩ := rfl
  have admits : (termsClause "base_branch" values).admits engine fields = true ↔
      text branch ∈ fields "base_branch" := by
    rw [admits_termsClause]
    constructor
    · rintro ⟨value, among, there⟩
      rwa [all value among] at there
    · exact fun there => ⟨branch, some_, there⟩
  constructor
  · rintro ⟨built, made, decides⟩
    rw [clause] at made
    cases made
    exact admits.mp (decides.mpr rfl)
  · exact fun there => ⟨_, clause, iff_of_true (admits.mpr there) rfl⟩

-- Ranges of merge numbers bring the branch with them.
theorem base_of_mergeNumberTerms {terms : List Query} (ranged : hasMergeNumberRangeFilter ast = true)
    (named : options.mergeNumberBaseBranch = some branch)
    (made : mergeNumberTerms ast options = .ok terms)
    (all : ∀ clause ∈ terms, clause.admits engine fields = true) :
    text branch ∈ fields "base_branch" := by
  unfold mergeNumberTerms at made
  rw [if_pos ranged, named] at made
  split at made
  next => cases made
  next epoch _ =>
    cases made
    simpa [Query.admits] using all (.term "base_branch" (text branch)) (by simp)

/-- The candidate without the branch matches what the query matches. -/
theorem admits_without_base {relaxed : BuiltQuery}
    (there : ast.filters[index]? = some (.equality .base false values))
    (all : ∀ value ∈ values, value = branch) (some_ : branch ∈ values)
    (ranged : hasMergeNumberRangeFilter ast = true)
    (named : options.mergeNumberBaseBranch = some branch)
    (made : buildQuery zones (resolveSearchTarget ast base).ast resolution options = .ok built)
    (made' : buildQuery zones (resolveSearchTarget (without ast index) base).ast resolution options =
      .ok relaxed) (admits : relaxed.query.admits engine fields = true) :
    built.query.admits engine fields = true := by
  obtain ⟨sequence, mergeNumber, first, second, is⟩ :=
    admits_buildQuery_iff engine fields made
  obtain ⟨sequence', mergeNumber', first', second', is'⟩ :=
    admits_buildQuery_iff engine fields made'
  have sameSequence : sequence' = sequence := by
    have same : sequenceTerms (resolveSearchTarget (without ast index) base).ast options =
        sequenceTerms (resolveSearchTarget ast base).ast options := by
      refine sequenceTerms_congr ?_
      rw [hasSequenceRangeFilter, hasSequenceRangeFilter, hasRangeFilter_target,
        hasRangeFilter_target, hasRangeFilter_without_equality there]
    exact Except.ok.inj (first'.symm.trans (same.trans first))
  have sameNumbers : mergeNumber' = mergeNumber := by
    have same : mergeNumberTerms (resolveSearchTarget (without ast index) base).ast options =
        mergeNumberTerms (resolveSearchTarget ast base).ast options := by
      refine mergeNumberTerms_congr ?_
      rw [hasMergeNumberRangeFilter, hasMergeNumberRangeFilter, hasRangeFilter_target,
        hasRangeFilter_target, hasRangeFilter_without_equality there]
    exact Except.ok.inj (second'.symm.trans (same.trans second))
  subst sameSequence sameNumbers
  obtain ⟨⟨terms, filters⟩, texts⟩ := is'.mp admits
  have branchThere : text branch ∈ fields "base_branch" := by
    have ranged' : hasMergeNumberRangeFilter (resolveSearchTarget ast base).ast = true := by
      rwa [hasMergeNumberRangeFilter, hasRangeFilter_target]
    exact base_of_mergeNumberTerms ranged' named second
      fun clause inside => terms clause (List.mem_append_right _ inside)
  have sameText : textClauses (resolveSearchTarget (without ast index) base).ast =
      textClauses (resolveSearchTarget ast base).ast := by
    refine textClauses_congr ?_
    rw [resolveSearchTarget_text, resolveSearchTarget_text]
    rfl
  rw [sameText] at texts
  refine is.mpr ⟨⟨terms, fun filter inside => ?_⟩, texts⟩
  rw [resolveSearchTarget_filters, List.mem_filter] at inside
  rcases mem_without_or index inside.1 with same | kept
  · rw [there] at same
    cases same
    exact (passes_base all some_).mpr branchThere
  · refine filters filter ?_
    rw [resolveSearchTarget_filters, List.mem_filter]
    exact ⟨kept, inside.2⟩

end Branch
end PrSearch.Search.Listing
