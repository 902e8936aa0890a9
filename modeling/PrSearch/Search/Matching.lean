import PrSearch.Search.Meaning

/-! # Which documents a search matches

A search succeeds when the query can be built, and that depends on the conditions apart from those on
the kind. Trees are rewritten by leaving conditions out and putting others in their place; what a
rewritten tree says is told from what the tree says.
-/
namespace PrSearch.Search

open Lib Index Query

variable {base : List EntityAlias} {key : NumericRangeKey}

/-! ### When a query is built -/

section Builds

variable {zones : Zones} {resolution : NameResolution} {options : BuildQueryOptions}

variable (zones resolution options) in
/-- The epochs that the numbers of a tree need are given, and each of its conditions has a clause. -/
structure Builds (ast : QueryAst) : Prop where
  sequence : hasSequenceRangeFilter ast = true → options.sequenceEpoch.isSome
  mergeNumber : hasMergeNumberRangeFilter ast = true →
    options.mergeNumberEpoch.isSome ∧ options.mergeNumberBaseBranch.isSome
  clauses : ∀ filter ∈ ast.filters, isKind filter = false →
    ∃ built, toClause zones resolution filter = .ok built

theorem sequenceTerms_isOk {ast : QueryAst} :
    (∃ terms, sequenceTerms ast options = .ok terms) ↔
      (hasSequenceRangeFilter ast = true → options.sequenceEpoch.isSome) := by
  unfold sequenceTerms
  split
  next ranged => cases options.sequenceEpoch <;> simp [ranged]
  next free => simp [free]

theorem mergeNumberTerms_isOk {ast : QueryAst} :
    (∃ terms, mergeNumberTerms ast options = .ok terms) ↔
      (hasMergeNumberRangeFilter ast = true →
        options.mergeNumberEpoch.isSome ∧ options.mergeNumberBaseBranch.isSome) := by
  unfold mergeNumberTerms
  split
  next ranged =>
    cases options.mergeNumberEpoch <;> cases options.mergeNumberBaseBranch <;> simp [ranged]
  next free => simp [free]

theorem addAll_isOk {filters : List QueryFilter} {clauses : Clauses} :
    (∃ last, addAll zones resolution clauses filters = .ok last) ↔
      ∀ filter ∈ filters, ∃ built, toClause zones resolution filter = .ok built := by
  induction filters generalizing clauses with
  | nil => simp [addAll]
  | cons filter rest ih =>
    simp only [addAll, Clauses.add, bind_ok_iff, map_ok_iff, List.forall_mem_cons]
    constructor
    · rintro ⟨last, next, ⟨built, made, -⟩, later⟩
      exact ⟨⟨built, made⟩, ih.mp ⟨last, later⟩⟩
    · rintro ⟨⟨built, made⟩, others⟩
      obtain ⟨last, later⟩ := ih.mpr others
      exact ⟨last, _, ⟨built, made, rfl⟩, later⟩

/-- A query is built of what is left when the conditions on the kind are taken out. -/
theorem buildQuery_isOk {ast : QueryAst} :
    (∃ built, buildQuery zones (resolveSearchTarget ast base).ast resolution options = .ok built) ↔
      Builds zones resolution options ast := by
  have sequence : (∃ terms, sequenceTerms (resolveSearchTarget ast base).ast options = .ok terms) ↔
      _ := sequenceTerms_isOk
  have mergeNumber : (∃ terms,
      mergeNumberTerms (resolveSearchTarget ast base).ast options = .ok terms) ↔ _ :=
    mergeNumberTerms_isOk
  rw [hasSequenceRangeFilter, hasRangeFilter_target] at sequence
  rw [hasMergeNumberRangeFilter, hasRangeFilter_target] at mergeNumber
  simp only [buildQuery, bind_ok_iff, map_ok_iff]
  constructor
  · rintro ⟨built, first, ordered, second, numbered, clauses, added, -⟩
    refine ⟨sequence.mp ⟨first, ordered⟩, mergeNumber.mp ⟨second, numbered⟩, ?_⟩
    intro filter inside other
    refine addAll_isOk.mp ⟨clauses, added⟩ filter ?_
    rw [resolveSearchTarget_filters, List.mem_filter]
    exact ⟨inside, by simp [other]⟩
  · rintro ⟨ordinals, numbers, made⟩
    obtain ⟨first, ordered⟩ := sequence.mpr ordinals
    obtain ⟨second, numbered⟩ := mergeNumber.mpr numbers
    have each : ∀ filter ∈ (resolveSearchTarget ast base).ast.filters,
        ∃ built, toClause zones resolution filter = .ok built := by
      intro filter inside
      rw [resolveSearchTarget_filters, List.mem_filter] at inside
      exact made filter inside.1 (by simpa using inside.2)
    obtain ⟨clauses, added⟩ := addAll_isOk.mpr each
    exact ⟨_, first, ordered, second, numbered, clauses, added, rfl⟩

end Builds

/-! ### Matching -/

section Matching

variable {engine : Engine} {zones : Zones} {resolution : NameResolution}
  {options : BuildQueryOptions} {document : IndexedDocument}

variable (engine zones resolution options) in
/-- A search among the indices finds the document. -/
def Matches (base : List EntityAlias) (ast : QueryAst) (document : IndexedDocument) : Prop :=
  (∃ indices ∈ (resolveSearchTarget ast base).target, document.index ∈ indices) ∧
    ∃ built, buildQuery zones (resolveSearchTarget ast base).ast resolution options = .ok built ∧
      built.query.admits engine document.fields = true

theorem target_subset {ast : QueryAst} {indices : List EntityAlias}
    (target : (resolveSearchTarget ast base).target = some indices) : indices ⊆ base := by
  have narrowed : ∀ (filters : List QueryFilter) (allowed : List EntityAlias),
      filters.foldl narrow allowed ⊆ allowed := by
    intro filters
    induction filters with
    | nil => exact fun allowed => List.Subset.refl allowed
    | cons filter rest ih =>
      intro allowed
      refine List.Subset.trans (ih _) ?_
      unfold narrow
      split
      · dsimp only
        split <;> exact List.filter_subset_self _
      · exact List.Subset.refl allowed
  unfold resolveSearchTarget at target
  split at target
  · dsimp only at target
    split at target
    · cases target
    · cases target
      exact List.Subset.trans (narrowed _ _) (List.dedup_subset base)
  · cases target
    exact List.Subset.refl _

/-- A search finds, among the indices, what the tree says. -/
theorem matches_iff {ast : QueryAst} (gathered : Gathered ast.filters) (some_ : ast.text ≠ some []) :
    Matches engine zones resolution options base ast document ↔
      document.index ∈ base ∧ Builds zones resolution options ast ∧
        SaysAll engine zones resolution options document ast := by
  have allowed : ∀ filter ∈ (resolveSearchTarget ast base).ast.filters, Allowed filter := by
    intro filter inside
    rw [resolveSearchTarget_filters, List.mem_filter] at inside
    exact gathered.allowed filter inside.1
  have text : (resolveSearchTarget ast base).ast.text ≠ some [] := by
    rwa [resolveSearchTarget_text]
  constructor
  · rintro ⟨⟨indices, target, inside⟩, built, made, admits⟩
    have within := target_subset target inside
    refine ⟨within, buildQuery_isOk.mp ⟨built, made⟩, (saysAll_target within).mpr ?_⟩
    exact ⟨⟨indices, target, inside⟩, (admits_buildQuery engine document allowed text made).mp admits⟩
  · rintro ⟨within, builds, said⟩
    obtain ⟨target, said⟩ := (saysAll_target within).mp said
    obtain ⟨built, made⟩ := buildQuery_isOk.mpr builds
    exact ⟨target, built, made, (admits_buildQuery engine document allowed text made).mpr said⟩

end Matching

/-! ### Rewriting trees -/

/-- Numbers that count in a space. -/
def isOrdinal (filter : QueryFilter) : Bool :=
  filter.key = .numeric .seq || filter.key = .numeric .mnum

/-- The tree without some of its conditions. -/
def without (p : QueryFilter → Bool) (ast : QueryAst) : QueryAst :=
  { ast with filters := ast.filters.filter fun filter => !p filter }

/-- The tree with one more condition. -/
def adding (filter : QueryFilter) (ast : QueryAst) : QueryAst :=
  { ast with filters := ast.filters ++ [filter] }

section Rewriting

variable {engine : Engine} {zones : Zones} {resolution : NameResolution}
  {options : BuildQueryOptions} {document : IndexedDocument} {ast : QueryAst}
  {p : QueryFilter → Bool} {filter : QueryFilter}

theorem hasRangeFilter_without (free : ∀ filter, p filter = true → filter.key ≠ .numeric key) :
    hasRangeFilter (without p ast) key = hasRangeFilter ast key := by
  rw [hasRangeFilter, without, List.any_filter, hasRangeFilter]
  refine List.any_congr rfl fun filter => ?_
  by_cases left_out : p filter = true
  · simp [left_out, free filter left_out]
  · simp [left_out]

theorem hasRangeFilter_adding (free : filter.key ≠ .numeric key) :
    hasRangeFilter (adding filter ast) key = hasRangeFilter ast key := by
  simp [hasRangeFilter, adding, free]

theorem key_of_not_isOrdinal (other : isOrdinal filter = false) :
    filter.key ≠ .numeric .seq ∧ filter.key ≠ .numeric .mnum := by
  simpa [isOrdinal] using other

/-- What a tree says beyond the tree without some conditions is what these say. -/
theorem saysAll_without (free : ∀ filter, p filter = true → isOrdinal filter = false) :
    SaysAll engine zones resolution options document ast ↔
      SaysAll engine zones resolution options document (without p ast) ∧
        ∀ filter ∈ ast.filters, p filter = true →
          Says engine zones resolution document filter := by
  have sequence : hasSequenceRangeFilter (without p ast) = hasSequenceRangeFilter ast :=
    hasRangeFilter_without fun filter left_out => (key_of_not_isOrdinal (free filter left_out)).1
  have mergeNumber : hasMergeNumberRangeFilter (without p ast) = hasMergeNumberRangeFilter ast :=
    hasRangeFilter_without fun filter left_out => (key_of_not_isOrdinal (free filter left_out)).2
  constructor
  · rintro ⟨filters, text, ordinals, numbers⟩
    refine ⟨⟨fun filter inside => filters filter (List.mem_of_mem_filter inside), text, ?_, ?_⟩,
      fun filter inside _ => filters filter inside⟩
    · rwa [sequence]
    · rwa [mergeNumber]
  · rintro ⟨⟨filters, text, ordinals, numbers⟩, others⟩
    rw [sequence] at ordinals
    rw [mergeNumber] at numbers
    refine ⟨fun filter inside => ?_, text, ordinals, numbers⟩
    by_cases left_out : p filter = true
    · exact others filter inside left_out
    · exact filters filter (List.mem_filter.mpr ⟨inside, by simp [left_out]⟩)

theorem saysAll_adding (free : isOrdinal filter = false) :
    SaysAll engine zones resolution options document (adding filter ast) ↔
      SaysAll engine zones resolution options document ast ∧
        Says engine zones resolution document filter := by
  obtain ⟨noSequence, noNumber⟩ := key_of_not_isOrdinal free
  have sequence : hasSequenceRangeFilter (adding filter ast) = hasSequenceRangeFilter ast :=
    hasRangeFilter_adding noSequence
  have mergeNumber : hasMergeNumberRangeFilter (adding filter ast) = hasMergeNumberRangeFilter ast :=
    hasRangeFilter_adding noNumber
  constructor
  · rintro ⟨filters, text, ordinals, numbers⟩
    rw [sequence] at ordinals
    rw [mergeNumber] at numbers
    exact ⟨⟨fun other inside => filters other (List.mem_append_left _ inside), text, ordinals,
      numbers⟩, filters filter (List.mem_append_right _ List.mem_cons_self)⟩
  · rintro ⟨⟨filters, text, ordinals, numbers⟩, said⟩
    refine ⟨fun other inside => ?_, text, ?_, ?_⟩
    · rcases List.mem_append.mp inside with old | new
      · exact filters other old
      · exact (List.mem_singleton.mp new) ▸ said
    · rwa [sequence]
    · rwa [mergeNumber]

theorem builds_without (free : ∀ filter, p filter = true → isOrdinal filter = false)
    (builds : Builds zones resolution options ast) :
    Builds zones resolution options (without p ast) := by
  obtain ⟨sequence, mergeNumber, clauses⟩ := builds
  refine ⟨?_, ?_, fun filter inside => clauses filter (List.mem_of_mem_filter inside)⟩
  · rwa [hasSequenceRangeFilter, hasRangeFilter_without fun filter left_out =>
      (key_of_not_isOrdinal (free filter left_out)).1]
  · rwa [hasMergeNumberRangeFilter, hasRangeFilter_without fun filter left_out =>
      (key_of_not_isOrdinal (free filter left_out)).2]

theorem builds_adding (free : isOrdinal filter = false)
    (made : isKind filter = false → ∃ built, toClause zones resolution filter = .ok built)
    (builds : Builds zones resolution options ast) :
    Builds zones resolution options (adding filter ast) := by
  obtain ⟨sequence, mergeNumber, clauses⟩ := builds
  obtain ⟨noSequence, noNumber⟩ := key_of_not_isOrdinal free
  refine ⟨?_, ?_, fun other inside => ?_⟩
  · rwa [hasSequenceRangeFilter, hasRangeFilter_adding noSequence]
  · rwa [hasMergeNumberRangeFilter, hasRangeFilter_adding noNumber]
  · rcases List.mem_append.mp inside with old | new
    · exact clauses other old
    · exact (List.mem_singleton.mp new) ▸ made

theorem without_adding (kept : p filter = false) :
    without p (adding filter ast) = adding filter (without p ast) := by
  simp [without, adding, kept]

end Rewriting

end PrSearch.Search
