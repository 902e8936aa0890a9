import PrSearch.Query.RoundTrip
import PrSearch.Search.Builder

/-! # What a query means

A condition says something of one document: that it has one of some values, or that a number or a
time of it lies within bounds. A tree means that all its positive conditions hold and none of its
negated ones. The query that `buildQuery` makes, in the indices that `resolveSearchTarget` leaves,
matches the documents that the tree means.
-/
namespace PrSearch.Search

open Lib Index Query

/-- A document of one of the indices, with the types that the mappings give its fields. -/
structure IndexedDocument where
  index : EntityAlias
  fields : Document
  numbers : ∀ key, ∀ value ∈ fields (numericField key), ∃ n, value = .number n
  times : ∀ key, ∀ value ∈ fields (temporalField key), ∀ n, value ≠ .number n

/-! ### Conditions -/

section Conditions

variable (engine : Engine) (zones : Zones) (resolution : NameResolution)
  (document : IndexedDocument)

/-- One of the teams with this slug is among the identifiers of a field. -/
def HasTeam (field : String) (slug : Text) : Prop :=
  ∃ ids ∈ resolution.teamIds slug, ∃ id ∈ ids, Json.number id ∈ document.fields field

/-- The document has this value. A name that nobody knows is no value of any document. -/
def Has : EqualityKey → Text → Prop
  | .repo, value => text value ∈ document.fields "repository"
  | .author, value => text value ∈ document.fields "author"
  | .reviewer, value => text value ∈ document.fields "reviewers"
  | .label, value => text value ∈ document.fields "labels"
  | .base, value => text value ∈ document.fields "base_branch"
  | .head, value => text value ∈ document.fields "head_branch"
  | .state, value => text value ∈ document.fields "state"
  | .release, value => text value ∈ document.fields "release_tags"
  | .path, value => text value ∈ document.fields "changed_paths"
  | .org, value => ∃ id ∈ resolution.orgIds value, Json.number id ∈ document.fields "org_id"
  | .team, slug => HasTeam resolution document "allowed_team_ids" slug
  | .authorTeam, slug => HasTeam resolution document "author_team_ids" slug
  | .is, value =>
      if value = "reverted".toList then Json.bool true ∈ document.fields "link_summary.is_reverted"
      else text value ∈ document.fields "state"
  | .kind, value => kindAlias value = some document.index

/-- What a condition says of a document, its sign apart. -/
def Holds : QueryFilter → Prop
  | .equality key _ values => ∃ value ∈ values, Has resolution document key value
  | .numeric key _ lower upper =>
      ∃ n, Json.number n ∈ document.fields (numericField key) ∧ lower ≤ n ∧ n ≤ upper
  | .temporal key _ lower upper timezone =>
      ∃ bounds ∈ temporalBounds zones lower upper timezone,
        ∃ time ∈ document.fields (temporalField key), engine.dated bounds time = true

/-- A negated condition excludes. -/
def Says (filter : QueryFilter) : Prop :=
  if filter.isNegated then ¬ Holds engine zones resolution document filter
  else Holds engine zones resolution document filter

/-- The analysed text matches, and the document is no commit outside the first-parent chain. -/
def SaysText (value : Text) : Prop :=
  engine.analyzed (String.ofList value) fullTextFields (textMatch value) document.fields = true ∧
    ((∀ role ∈ document.fields "role", role = .null) ∨
      ∃ role ∈ document.fields "role", role ∈ firstParentCommitRoles)

end Conditions

/-! ### Spaces -/

section Spaces

variable (options : BuildQueryOptions) (document : IndexedDocument)

def InSequenceSpace : Prop :=
  ∃ epoch ∈ options.sequenceEpoch, Json.number epoch ∈ document.fields "seq_epoch"

def InMergeNumberSpace : Prop :=
  ∃ epoch ∈ options.mergeNumberEpoch, ∃ branch ∈ options.mergeNumberBaseBranch,
    Json.number epoch ∈ document.fields "merge_number_epoch" ∧
      text branch ∈ document.fields "base_branch"

end Spaces

variable {values : List Text} {fields : Document} {filter : QueryFilter} {ast : QueryAst}

variable {field : String} {value : Text} {clause : Query} {key : EqualityKey} {built : BuiltQuery}
  {clauses : Clauses} {filters : List QueryFilter} {terms : List Query}
  {allowed base : List EntityAlias}

/-! ### Clauses -/

section Clauses

variable {engine : Engine} {zones : Zones} {resolution : NameResolution}
  {document : IndexedDocument}

theorem admits_termsClause :
    (termsClause field values).admits engine fields = true ↔
      ∃ value ∈ values, text value ∈ fields field := by
  rw [termsClause, Query.admits_terms]
  constructor
  · rintro ⟨_, inside, named⟩
    obtain ⟨value, among, rfl⟩ := List.mem_map.mp named
    exact ⟨value, among, inside⟩
  · rintro ⟨value, among, inside⟩
    exact ⟨text value, inside, List.mem_map_of_mem among⟩

theorem admits_idsClause {ids : List Int} :
    (idsClause field ids).admits engine fields = true ↔
      ∃ id ∈ ids, Json.number id ∈ fields field := by
  unfold idsClause
  split
  next none_ => simp [none_, Query.admits]
  next some_ =>
    rw [Query.admits_terms]
    constructor
    · rintro ⟨_, inside, named⟩
      obtain ⟨id, among, rfl⟩ := List.mem_map.mp named
      exact ⟨id, among, inside⟩
    · rintro ⟨id, among, inside⟩
      exact ⟨.number id, inside, List.mem_map_of_mem among⟩

/-- Clauses of which one must match. -/
theorem admits_should {should : List Query} :
    (Query.bool [] [] should [] 1).admits engine fields = true ↔
      ∃ clause ∈ should, clause.admits engine fields = true := by
  rw [Query.admits_filter_should]
  simp

theorem admits_pathClause :
    (pathClause values).admits engine fields = true ↔
      ∃ value ∈ values, text value ∈ fields pathField := by
  rw [pathClause, admits_should]
  simp [Query.admits]

theorem admits_derivedState (derived : derivedState value = some clause) :
    clause.admits engine document.fields = true ↔ Has resolution document .is value := by
  unfold derivedState at derived
  simp only [Has]
  split at derived
  next same => subst same; cases derived; simp [Query.admits, text]
  next =>
    split at derived
    next same => subst same; cases derived; simp [Query.admits, text]
    next =>
      split at derived
      next same => subst same; cases derived; simp [Query.admits, text]
      next =>
        split at derived
        next same => subst same; cases derived; simp [Query.admits]
        next => cases derived

/-- The values that the parser lets through are all derived states. -/
theorem derivedState_of_allowed (allowed : checkEnumeratedValue .is value = .ok ()) :
    ∃ clause, derivedState value = some clause := by
  simp only [checkEnumeratedValue, enumeratedValues] at allowed
  split at allowed
  next inside =>
    simp only [List.mem_cons, List.not_mem_nil, or_false] at inside
    rcases inside with rfl | rfl | rfl | rfl <;> exact ⟨_, rfl⟩
  next => cases allowed

theorem admits_derivedStateClause
    (allowed : ∀ value ∈ values, checkEnumeratedValue .is value = .ok ()) :
    (derivedStateClause values).admits engine document.fields = true ↔
      ∃ value ∈ values, Has resolution document .is value := by
  have one : (derivedStateClause values).admits engine document.fields = true ↔
      ∃ clause ∈ values.filterMap derivedState, clause.admits engine document.fields = true := by
    unfold derivedStateClause
    split
    next clause found => simp [found]
    next => exact admits_should
  rw [one]
  constructor
  · rintro ⟨clause, among, admits⟩
    obtain ⟨value, inside, derived⟩ := List.mem_filterMap.mp among
    exact ⟨value, inside, (admits_derivedState derived).mp admits⟩
  · rintro ⟨value, inside, has⟩
    obtain ⟨clause, derived⟩ := derivedState_of_allowed (allowed value inside)
    exact ⟨clause, List.mem_filterMap.mpr ⟨value, inside, derived⟩,
      (admits_derivedState derived).mpr has⟩

/-- The teams of all slugs. -/
theorem admits_teams :
    (idsClause field (values.flatMap fun value => (resolution.teamIds value).getD [])).admits engine
        document.fields = true ↔ ∃ value ∈ values, HasTeam resolution document field value := by
  rw [admits_idsClause]
  constructor
  · rintro ⟨id, inside, held⟩
    obtain ⟨value, among, inside⟩ := List.mem_flatMap.mp inside
    cases known : resolution.teamIds value with
    | none => simp [known] at inside
    | some ids =>
      rw [known] at inside
      exact ⟨value, among, ids, known, id, inside, held⟩
  · rintro ⟨value, among, ids, known, id, inside, held⟩
    refine ⟨id, List.mem_flatMap.mpr ⟨value, among, ?_⟩, held⟩
    rw [Option.mem_def.mp known]
    exact inside

theorem admits_orgs :
    (idsClause "org_id" (values.filterMap resolution.orgIds)).admits engine document.fields = true ↔
      ∃ value ∈ values, Has resolution document .org value := by
  rw [admits_idsClause]
  constructor
  · rintro ⟨id, inside, held⟩
    obtain ⟨value, among, known⟩ := List.mem_filterMap.mp inside
    exact ⟨value, among, id, known, held⟩
  · rintro ⟨value, among, id, known, held⟩
    exact ⟨id, List.mem_filterMap.mpr ⟨value, among, known⟩, held⟩

theorem admits_equalityClause {negated : Bool} (allowed : Allowed (.equality key negated values))
    (made : equalityClause resolution key values = .ok built) :
    built.query.admits engine document.fields = true ↔
      Holds engine zones resolution document (.equality key negated values) := by
  cases key
  case is => cases made; exact admits_derivedStateClause allowed
  case path => cases made; exact admits_pathClause
  case org => cases made; exact admits_orgs
  case team => cases made; exact admits_teams
  case authorTeam => cases made; exact admits_teams
  case kind => cases made
  all_goals
    cases made
    exact admits_termsClause

theorem admits_numericClause {key : NumericRangeKey} {negated : Bool} {lower upper : Int} :
    (numericClause key lower upper).admits engine document.fields = true ↔
      Holds engine zones resolution document (.numeric key negated lower upper) := by
  simp only [numericClause, Query.admits, List.any_eq_true, Holds]
  constructor
  · rintro ⟨value, inside, within⟩
    obtain ⟨n, rfl⟩ := document.numbers key value inside
    have bounds : lower ≤ n ∧ n ≤ upper := by simpa [Engine.within, Json.asNumber] using within
    exact ⟨n, inside, bounds⟩
  · rintro ⟨n, inside, least, greatest⟩
    exact ⟨.number n, inside, by simp [Engine.within, Json.asNumber, least, greatest]⟩

theorem within_time (bounds : Bounds) {time : Json} (isTime : ∀ n, time ≠ .number n) :
    engine.within bounds time = engine.dated bounds time := by
  unfold Engine.within
  split
  next n => exact absurd rfl (isTime n)
  next => rfl

theorem admits_temporalClause {key : TemporalRangeKey} {negated : Bool} {lower upper : Text}
    {timezone : Option Text} (made : temporalClause zones key lower upper timezone = .ok clause) :
    clause.admits engine document.fields = true ↔
      Holds engine zones resolution document (.temporal key negated lower upper timezone) := by
  unfold temporalClause at made
  split at made
  next bounds found =>
    cases made
    simp only [Query.admits, List.any_eq_true, Holds, found, Option.mem_some_iff,
      exists_eq_left']
    constructor
    · rintro ⟨time, inside, within⟩
      rw [within_time bounds (document.times key time inside)] at within
      exact ⟨time, inside, within⟩
    · rintro ⟨time, inside, dated⟩
      rw [← within_time bounds (document.times key time inside)] at dated
      exact ⟨time, inside, dated⟩
  next => cases made

/-- A clause matches the documents that its condition holds of. -/
theorem admits_toClause (allowed : Allowed filter)
    (made : toClause zones resolution filter = .ok built) :
    built.query.admits engine document.fields = true ↔
      Holds engine zones resolution document filter := by
  cases filter with
  | equality key negated values => exact admits_equalityClause allowed made
  | numeric key negated lower upper =>
    cases made
    exact admits_numericClause
  | temporal key negated lower upper timezone =>
    obtain ⟨clause, timed, rfl⟩ := map_ok_iff.mp made
    exact admits_temporalClause timed

end Clauses

/-! ### Queries -/

section Queries

/-- The clauses that filter match, and those that exclude do not. -/
def Clauses.Admit (engine : Engine) (fields : Document) (clauses : Clauses) : Prop :=
  (∀ clause ∈ clauses.filter, clause.admits engine fields = true) ∧
    ∀ clause ∈ clauses.mustNot, ¬ clause.admits engine fields = true

variable (engine : Engine) {zones : Zones} {resolution : NameResolution}
  {options : BuildQueryOptions} (document : IndexedDocument)

theorem Clauses.admit_add {next : Clauses} (allowed : Allowed filter)
    (added : clauses.add zones resolution filter = .ok next) :
    next.Admit engine document.fields ↔ clauses.Admit engine document.fields ∧
      Says engine zones resolution document filter := by
  obtain ⟨built, made, rfl⟩ := map_ok_iff.mp added
  have means : built.query.admits engine document.fields = true ↔
      Holds engine zones resolution document filter := admits_toClause allowed made
  unfold Says
  split
  next negated =>
    simp only [Clauses.Admit, List.mem_append, List.mem_singleton, or_imp, forall_and, forall_eq,
      means, and_assoc]
  next positive =>
    simp only [Clauses.Admit, List.mem_append, List.mem_singleton, or_imp, forall_and, forall_eq,
      means]
    exact and_right_comm

theorem admit_addAll (allowed : ∀ filter ∈ filters, Allowed filter) {last : Clauses}
    (added : addAll zones resolution clauses filters = .ok last) :
    last.Admit engine document.fields ↔ clauses.Admit engine document.fields ∧
      ∀ filter ∈ filters, Says engine zones resolution document filter := by
  induction filters generalizing clauses with
  | nil =>
    cases added
    simp
  | cons filter rest ih =>
    obtain ⟨next, first, later⟩ := bind_ok_iff.mp added
    rw [ih (fun other inside => allowed other (List.mem_cons_of_mem _ inside)) later,
      Clauses.admit_add engine document (allowed filter List.mem_cons_self) first, List.forall_mem_cons, and_assoc]

theorem admits_assemble {must : List Query} :
    (assemble must clauses).admits engine fields = true ↔
      (∀ clause ∈ must, clause.admits engine fields = true) ∧ clauses.Admit engine fields := by
  unfold assemble
  split
  next nothing =>
    obtain ⟨filter, mustNot, must⟩ := nothing
    simp [Query.admits, Clauses.Admit, filter, mustNot, must]
  next =>
    rw [← Query.admitsAll_iff, Clauses.Admit, ← Query.admitsAll_iff, ← Query.admitted_eq_zero]
    simp [Query.admits, and_assoc]

theorem admits_nonFirstParentCommit :
    nonFirstParentCommit.admits engine fields = true ↔
      (∃ role ∈ fields "role", role ≠ .null) ∧
        ∀ role ∈ fields "role", role ∉ firstParentCommitRoles := by
  simp [nonFirstParentCommit, Query.admits, Query.admitsAll, Query.admitted]

theorem admits_textClauses (some_ : ast.text ≠ some []) :
    ((∀ clause ∈ (textClauses ast).1, clause.admits engine document.fields = true) ∧
        ∀ clause ∈ (textClauses ast).2, ¬ clause.admits engine document.fields = true) ↔
      ∀ value ∈ ast.text, SaysText engine document value := by
  unfold textClauses
  split
  next none_ => simp [none_]
  next empty => exact absurd empty some_
  next value _ is =>
    simp only [List.mem_singleton, forall_eq, is, Option.mem_some_iff, forall_eq', SaysText,
      admits_nonFirstParentCommit]
    refine and_congr ?_ ?_
    · simp [buildTextClause, Query.admits]
    · rw [not_and_or]
      push Not
      rfl

theorem admit_sequenceTerms (made : sequenceTerms ast options = .ok terms) :
    (∀ clause ∈ terms, clause.admits engine document.fields = true) ↔
      (hasSequenceRangeFilter ast = true → InSequenceSpace options document) := by
  unfold sequenceTerms at made
  split at made
  next ranged =>
    split at made
    · cases made
    next epoch given =>
      cases made
      simp [ranged, InSequenceSpace, given, Query.admits]
  next free =>
    cases made
    simp [free]

theorem admit_mergeNumberTerms (made : mergeNumberTerms ast options = .ok terms) :
    (∀ clause ∈ terms, clause.admits engine document.fields = true) ↔
      (hasMergeNumberRangeFilter ast = true → InMergeNumberSpace options document) := by
  unfold mergeNumberTerms at made
  split at made
  next ranged =>
    split at made
    · cases made
    next epoch given =>
      split at made
      · cases made
      next branch named =>
        cases made
        simp [ranged, InMergeNumberSpace, given, named, Query.admits]
  next free =>
    cases made
    simp [free]

variable (zones resolution options) in
/-- All that a tree says of a document: each of its conditions, its text, and the spaces that its
numbers count in. -/
structure SaysAll (ast : QueryAst) : Prop where
  filters : ∀ filter ∈ ast.filters, Says engine zones resolution document filter
  text : ∀ value ∈ ast.text, SaysText engine document value
  sequence : hasSequenceRangeFilter ast = true → InSequenceSpace options document
  mergeNumber : hasMergeNumberRangeFilter ast = true → InMergeNumberSpace options document

/-- The query that is built of a tree matches what the tree says. -/
theorem admits_buildQuery (allowed : ∀ filter ∈ ast.filters, Allowed filter)
    (some_ : ast.text ≠ some []) (made : buildQuery zones ast resolution options = .ok built) :
    built.query.admits engine document.fields = true ↔
      SaysAll engine zones resolution options document ast := by
  obtain ⟨sequence, first, made⟩ := bind_ok_iff.mp made
  obtain ⟨mergeNumber, second, made⟩ := bind_ok_iff.mp made
  obtain ⟨clauses, added, rfl⟩ := map_ok_iff.mp made
  have filters := admit_addAll engine document allowed added
  have texts := admits_textClauses engine document some_
  have inSequence := admit_sequenceTerms engine document first
  have inNumbers := admit_mergeNumberTerms engine document second
  rw [admits_assemble]
  simp only [Clauses.Admit, List.mem_append, or_imp, forall_and, List.not_mem_nil,
    false_implies, implies_true, and_true] at filters ⊢
  constructor
  · rintro ⟨must, kept, excluded, silent⟩
    obtain ⟨⟨ordinals, numbers⟩, said⟩ := filters.mp ⟨kept, excluded⟩
    exact ⟨said, texts.mp ⟨must, silent⟩, inSequence.mp ordinals, inNumbers.mp numbers⟩
  · rintro ⟨said, text, ordinals, numbers⟩
    obtain ⟨kept, excluded⟩ :=
      filters.mpr ⟨⟨inSequence.mpr ordinals, inNumbers.mpr numbers⟩, said⟩
    obtain ⟨must, silent⟩ := texts.mpr text
    exact ⟨must, kept, excluded, silent⟩

end Queries

/-! ### Indices -/

section Targets

variable (engine : Engine) (zones : Zones) (resolution : NameResolution)
  {document : IndexedDocument}

theorem holds_kind {negated : Bool} :
    Holds engine zones resolution document (.equality .kind negated values) ↔
      document.index ∈ values.filterMap kindAlias := by
  simp [Holds, Has, List.mem_filterMap]

/-- A condition on the kind leaves the index of a document if it says so of the document. -/
theorem mem_narrow :
    document.index ∈ narrow allowed filter ↔ document.index ∈ allowed ∧
      (isKind filter = true → Says engine zones resolution document filter) := by
  unfold narrow
  split
  next negated values =>
    cases negated
    · simp [Says, QueryFilter.isNegated, holds_kind, isKind]
    · simp [Says, QueryFilter.isNegated, holds_kind, isKind]
  next other =>
    have others : isKind filter = false := by
      unfold isKind
      split
      next negated values => exact absurd rfl (other negated values)
      next => rfl
    simp [others]

theorem mem_foldl_narrow :
    document.index ∈ filters.foldl narrow allowed ↔ document.index ∈ allowed ∧
      ∀ filter ∈ filters, isKind filter = true → Says engine zones resolution document filter := by
  induction filters generalizing allowed with
  | nil => simp
  | cons filter rest ih =>
    rw [List.foldl_cons, ih, mem_narrow engine zones resolution, List.forall_mem_cons, and_assoc]

/-- The indices that are searched are those of which the conditions on the kind say so. -/
theorem mem_target (within : document.index ∈ base) :
    (∃ indices ∈ (resolveSearchTarget ast base).target, document.index ∈ indices) ↔
      ∀ filter ∈ ast.filters, isKind filter = true →
        Says engine zones resolution document filter := by
  have narrowed : document.index ∈ ast.filters.foldl narrow base.dedup ↔ _ :=
    mem_foldl_narrow engine zones resolution
  simp only [List.mem_dedup, within, true_and] at narrowed
  unfold resolveSearchTarget
  split
  next touched =>
    rw [← narrowed]
    constructor
    · rintro ⟨indices, is, inside⟩
      dsimp only at is
      split at is
      · cases is
      · cases is
        exact inside
    · intro inside
      have some_ : ast.filters.foldl narrow base.dedup ≠ [] := List.ne_nil_of_mem inside
      exact ⟨_, if_neg some_, inside⟩
  next untouched =>
    simp only [List.any_eq_true, not_exists, not_and] at untouched
    constructor
    · intro _ filter inside kind
      exact absurd kind (untouched filter inside)
    · exact fun _ => ⟨base, rfl, within⟩

theorem resolveSearchTarget_filters (ast : QueryAst) (base : List EntityAlias) :
    (resolveSearchTarget ast base).ast.filters =
      ast.filters.filter fun filter => !isKind filter := by
  unfold resolveSearchTarget
  split
  · rfl
  next untouched =>
    simp only [List.any_eq_true, not_exists, not_and, Bool.not_eq_true] at untouched
    rw [eq_comm, List.filter_eq_self]
    intro filter inside
    simp [untouched filter inside]

theorem resolveSearchTarget_text (ast : QueryAst) (base : List EntityAlias) :
    (resolveSearchTarget ast base).ast.text = ast.text := by
  unfold resolveSearchTarget
  split <;> rfl

end Targets

/-! ### Trees -/

/-- Where a key has positive conditions, one of them holds. -/
def Alternatives (holds : QueryFilter → Prop) (filters : List QueryFilter) (key : QueryKey) : Prop :=
  (∃ filter ∈ filters, filter.key = key ∧ filter.isNegated = false) →
    ∃ filter ∈ filters, filter.key = key ∧ filter.isNegated = false ∧ holds filter

section Trees

variable (engine : Engine) (zones : Zones) (resolution : NameResolution)
  (options : BuildQueryOptions) (document : IndexedDocument)

/-- What a tree means: different keys are conjoined, the values of one key are alternatives, each
range holds, and no negated condition does. -/
structure Means (ast : QueryAst) : Prop where
  values : ∀ key, Alternatives (Holds engine zones resolution document) ast.filters (.equality key)
  ranges : ∀ filter ∈ ast.filters, slot filter = none → filter.isNegated = false →
    Holds engine zones resolution document filter
  negated : ∀ filter ∈ ast.filters, filter.isNegated = true →
    ¬ Holds engine zones resolution document filter
  text : ∀ value ∈ ast.text, SaysText engine document value
  sequence : hasSequenceRangeFilter ast = true → InSequenceSpace options document
  mergeNumber : hasMergeNumberRangeFilter ast = true → InMergeNumberSpace options document

variable {engine zones resolution options document}

theorem Says.positive (positive : filter.isNegated = false) :
    Says engine zones resolution document filter ↔
      Holds engine zones resolution document filter := by
  simp [Says, positive]

theorem Says.negated (negated : filter.isNegated = true) :
    Says engine zones resolution document filter ↔
      ¬ Holds engine zones resolution document filter := by
  simp [Says, negated]

-- Two conditions with one slot are the same condition.
theorem eq_of_slot (apart : (filters.filterMap slot).Nodup) {one other : QueryFilter}
    (first : one ∈ filters) (second : other ∈ filters) {place : EqualityKey × Bool}
    (same : slot one = some place) (same' : slot other = some place) : one = other := by
  induction filters with
  | nil => cases first
  | cons filter rest ih =>
    cases found : slot filter with
    | none =>
      simp only [List.filterMap_cons, found] at apart
      have later : ∀ {each : QueryFilter}, each ∈ filter :: rest → slot each = some place →
          each ∈ rest := by
        intro each inside placed
        rcases List.mem_cons.mp inside with rfl | inside
        · rw [found] at placed
          cases placed
        · exact inside
      exact ih apart (later first same) (later second same')
    | some taken =>
      simp only [List.filterMap_cons, found, List.nodup_cons] at apart
      have absent : ∀ each ∈ rest, slot each ≠ some taken := fun each inside placed =>
        apart.1 (List.mem_filterMap.mpr ⟨each, inside, placed⟩)
      rcases List.mem_cons.mp first with rfl | earlier
      · rcases List.mem_cons.mp second with rfl | later
        · rfl
        · rw [found] at same
          cases same
          exact absurd same' (absent other later)
      · rcases List.mem_cons.mp second with rfl | later
        · rw [found] at same'
          cases same'
          exact absurd same (absent one earlier)
        · exact ih apart.2 earlier later

theorem slot_of_key (same : filter.key = .equality key) :
    slot filter = some (key, filter.isNegated) := by
  cases filter with
  | equality => cases same; rfl
  | numeric | temporal => cases same

/-- With its values gathered, a tree says of a document what it means. -/
theorem saysAll_iff_means (gathered : Gathered ast.filters) :
    SaysAll engine zones resolution options document ast ↔
      Means engine zones resolution options document ast := by
  constructor
  · rintro ⟨filters, text, sequence, mergeNumber⟩
    refine ⟨fun key => ?_, fun filter inside _ positive => ?_, fun filter inside negated => ?_, text,
      sequence, mergeNumber⟩
    · rintro ⟨filter, inside, named, positive⟩
      exact ⟨filter, inside, named, positive, (Says.positive positive).mp (filters filter inside)⟩
    · exact (Says.positive positive).mp (filters filter inside)
    · exact (Says.negated negated).mp (filters filter inside)
  · rintro ⟨values, ranges, negated, text, sequence, mergeNumber⟩
    refine ⟨fun filter inside => ?_, text, sequence, mergeNumber⟩
    cases sign : filter.isNegated with
    | true => exact (Says.negated sign).mpr (negated filter inside sign)
    | false =>
      rw [Says.positive sign]
      cases placed : slot filter with
      | none => exact ranges filter inside placed sign
      | some place =>
        -- the condition of the key that holds can be no other than this one
        obtain ⟨key, named⟩ : ∃ key, filter.key = .equality key := by
          cases filter with
          | equality key => exact ⟨key, rfl⟩
          | numeric | temporal => cases placed
        obtain ⟨other, inside', named', sign', holds⟩ := values key ⟨filter, inside, named, sign⟩
        have first := slot_of_key named
        have second := slot_of_key named'
        rw [sign] at first
        rw [sign'] at second
        rwa [eq_of_slot gathered.apart inside inside' first second]

theorem hasRangeFilter_target (ast : QueryAst) (base : List EntityAlias) (key : NumericRangeKey) :
    hasRangeFilter (resolveSearchTarget ast base).ast key = hasRangeFilter ast key := by
  rw [hasRangeFilter, resolveSearchTarget_filters, List.any_filter, hasRangeFilter]
  refine List.any_congr rfl fun filter => ?_
  cases filter <;> simp [isKind, QueryFilter.key]

/-- A tree says of a document of the indices what its conditions on the kind and the rest say. -/
theorem saysAll_target (within : document.index ∈ base) :
    SaysAll engine zones resolution options document ast ↔
      (∃ indices ∈ (resolveSearchTarget ast base).target, document.index ∈ indices) ∧
        SaysAll engine zones resolution options document (resolveSearchTarget ast base).ast := by
  rw [mem_target engine zones resolution within]
  constructor
  · rintro ⟨filters, text, sequence, mergeNumber⟩
    refine ⟨fun filter inside _ => filters filter inside, ?_, ?_, ?_, ?_⟩
    · intro filter inside
      rw [resolveSearchTarget_filters, List.mem_filter] at inside
      exact filters filter inside.1
    · rwa [resolveSearchTarget_text]
    · rwa [hasSequenceRangeFilter, hasRangeFilter_target]
    · rwa [hasMergeNumberRangeFilter, hasRangeFilter_target]
  · rintro ⟨kinds, filters, text, sequence, mergeNumber⟩
    rw [resolveSearchTarget_text] at text
    rw [hasSequenceRangeFilter, hasRangeFilter_target] at sequence
    rw [hasMergeNumberRangeFilter, hasRangeFilter_target] at mergeNumber
    refine ⟨fun filter inside => ?_, text, sequence, mergeNumber⟩
    cases kind : isKind filter with
    | true => exact kinds filter inside kind
    | false =>
      apply filters
      rw [resolveSearchTarget_filters, List.mem_filter]
      exact ⟨inside, by simp [kind]⟩

/-- A query with a sequence range means documents of the space that it is bound to. -/
theorem Means.bound (means : Means engine zones resolution options document ast)
    (gathered : Gathered ast.filters) {repository baseBranch : Text}
    (bound : analyzeSequenceBinding ast = .bound repository baseBranch) :
    Has resolution document .repo repository ∧ Has resolution document .base baseBranch := by
  have all := (saysAll_iff_means gathered).mpr means
  obtain ⟨repositories, branches⟩ := positiveValues_of_bound bound
  have only : ∀ {key : EqualityKey} {value : Text}, positiveValues ast key = [value] →
      Has resolution document key value := by
    intro key value one
    obtain ⟨values, inside, -⟩ := mem_positiveValues.mp (one ▸ List.mem_singleton.mpr rfl)
    obtain ⟨other, among, has⟩ := (Says.positive rfl).mp (all.filters _ inside)
    have same : other ∈ positiveValues ast key := mem_positiveValues.mpr ⟨values, inside, among⟩
    rw [one] at same
    rwa [← List.mem_singleton.mp same]
  exact ⟨only repositories, only branches⟩

end Trees

/-! ### Searches -/

section Searches

variable {engine : Engine} {zones : Zones} {resolution : NameResolution}
  {options : BuildQueryOptions} {document : IndexedDocument}

/-- Among the documents of the indices, those that are searched and matched are those that the query
means; and with a sequence range, these belong to the space that it is bound to. -/
theorem buildQuery_means {runtime : Runtime} {input : Text} {ast : QueryAst}
    (accepted : parseQuery runtime input = .ok ast) {base : List EntityAlias}
    (within : document.index ∈ base) {built : BuiltQuery}
    (made : buildQuery zones (resolveSearchTarget ast base).ast resolution options = .ok built) :
    ((∃ indices ∈ (resolveSearchTarget ast base).target, document.index ∈ indices) ∧
        built.query.admits engine document.fields = true ↔
      Means engine zones resolution options document ast) ∧
    ∀ repository baseBranch, analyzeSequenceBinding ast = .bound repository baseBranch →
      Means engine zones resolution options document ast →
        Has resolution document .repo repository ∧ Has resolution document .base baseBranch := by
  obtain ⟨gathered, some_⟩ := gathered_of_parseQuery accepted
  constructor
  · have allowed : ∀ filter ∈ (resolveSearchTarget ast base).ast.filters, Allowed filter := by
      intro filter inside
      rw [resolveSearchTarget_filters, List.mem_filter] at inside
      exact gathered.allowed filter inside.1
    rw [← saysAll_iff_means gathered, saysAll_target within,
      admits_buildQuery engine document allowed (by rwa [resolveSearchTarget_text]) made]
  · exact fun repository baseBranch bound means => means.bound gathered bound

end Searches

/-- A document with a count of changed files and nothing else. -/
def countedDocument (files : Int) : IndexedDocument where
  index := .pullRequests
  fields := fun field => if field = "changed_files_count" then [.number files] else []
  numbers := by
    intro key value inside
    split at inside
    · exact ⟨files, List.mem_singleton.mp inside⟩
    · cases inside
  times := by
    intro key value inside
    cases key <;> cases inside

/-- An engine that matches no text and no time. -/
def silentEngine : Engine where
  analyzed _ _ _ _ := false
  dated _ _ := false

def emptyResolution : NameResolution where
  orgIds _ := none
  teamIds _ := none

/-- The query of two ranges of changed files, for the pull requests. -/
def rangesQuery (lower upper lower' upper' : Int) : Query :=
  .bool [] [.range "changed_files_count" ⟨some (.number lower), some (.number upper), none⟩,
    .range "changed_files_count" ⟨some (.number lower'), some (.number upper'), none⟩] [] [] 0

theorem buildQuery_means_counted :
    Means silentEngine (fun _ => none) emptyResolution {} (countedDocument 3)
      ⟨[.numeric .changedFiles false 1 5, .numeric .changedFiles false 2 6,
        .equality .kind true ["commit".toList]], none⟩ := by
  have accepted : parseQuery seoulRuntime
      "changed_files:1..5 changed_files:2..6 -kind:commit".toList =
        .ok ⟨[.numeric .changedFiles false 1 5, .numeric .changedFiles false 2 6,
          .equality .kind true ["commit".toList]], none⟩ := rfl
  have means := @buildQuery_means silentEngine (fun _ => none) emptyResolution {}
    (countedDocument 3) _ _ _ accepted [.pullRequests, .commits] (by decide)
    ⟨rangesQuery 1 5 2 6, []⟩ rfl
  exact means.1.mp ⟨⟨[.pullRequests], rfl, by decide⟩, by decide⟩

/-- Two ranges of one key both hold: they are no alternatives. -/
theorem ranges_not_alternatives :
    ¬ ∀ (engine : Engine) (zones : Zones) (resolution : NameResolution)
      (options : BuildQueryOptions) (document : IndexedDocument) (runtime : Runtime) (input : Text)
      (ast : QueryAst) (base : List EntityAlias) (built : BuiltQuery),
      parseQuery runtime input = .ok ast → document.index ∈ base →
      buildQuery zones (resolveSearchTarget ast base).ast resolution options = .ok built →
      ((∃ indices ∈ (resolveSearchTarget ast base).target, document.index ∈ indices) ∧
          built.query.admits engine document.fields = true ↔
        (∀ key, Alternatives (Holds engine zones resolution document) ast.filters key) ∧
        (∀ filter ∈ ast.filters, filter.isNegated = true →
          ¬ Holds engine zones resolution document filter) ∧
        (∀ value ∈ ast.text, SaysText engine document value) ∧
        (hasSequenceRangeFilter ast = true → InSequenceSpace options document) ∧
        (hasMergeNumberRangeFilter ast = true → InMergeNumberSpace options document)) := by
  intro all
  have claimed := all silentEngine (fun _ => none) emptyResolution {} (countedDocument 1)
    seoulRuntime "changed_files:1..2 changed_files:5..6".toList
    ⟨[.numeric .changedFiles false 1 2, .numeric .changedFiles false 5 6], none⟩ [.pullRequests]
    ⟨rangesQuery 1 2 5 6, []⟩ rfl (by decide) rfl
  have found := claimed.mpr ⟨?_, ?_, ?_, ?_, ?_⟩
  · exact absurd found.2 (by decide)
  · -- the first range holds of one changed file
    rintro key ⟨filter, inside, rfl, -⟩
    refine ⟨.numeric .changedFiles false 1 2, List.mem_cons_self, ?_, rfl, 1, ?_, by decide⟩
    · rcases List.mem_cons.mp inside with rfl | inside
      · rfl
      · obtain rfl := List.mem_singleton.mp inside
        rfl
    · exact List.mem_singleton.mpr rfl
  · intro filter inside negated
    rcases List.mem_cons.mp inside with rfl | inside
    · cases negated
    · obtain rfl := List.mem_singleton.mp inside
      cases negated
  · rintro value ⟨⟩
  · intro ranged
    exact absurd ranged (by decide)
  · intro ranged
    exact absurd ranged (by decide)

end PrSearch.Search
