import PrSearch.Search.DrillDown

/-! # Distributions

A distribution counts the matched pull requests in buckets of a count of changes. The drill-down query
of a bucket keeps the first positive range of the base query on that dimension and no other one. So
it selects the documents of the bucket exactly when, between the bounds that are left, no other range
of the base query excludes a value; and when the text of the base query can be read back.
-/
namespace PrSearch.Search

open Lib Index Query

structure DistributionBucketSpec where
  key : String
  lower : Int
  /-- Without an upper bound the bucket is open. -/
  upper : Option Int
  deriving DecidableEq, Repr

/-- `DISTRIBUTION_BUCKETS` -/
def distributionBuckets : Dimension → List DistributionBucketSpec
  | .changedFiles =>
      [⟨"0", 0, some 0⟩, ⟨"1", 1, some 1⟩, ⟨"2-5", 2, some 5⟩, ⟨"6-20", 6, some 20⟩,
        ⟨"21-100", 21, some 100⟩, ⟨"100+", 101, none⟩]
  | .changedLines =>
      [⟨"0", 0, some 0⟩, ⟨"1-50", 1, some 50⟩, ⟨"51-200", 51, some 200⟩,
        ⟨"201-1000", 201, some 1000⟩, ⟨"1000+", 1001, none⟩]

/-- A range of the aggregation, with its lower bound and without its upper one. -/
structure AggRange where
  key : String
  from_ : Int
  to_ : Option Int
  deriving DecidableEq, Repr

def aggRange (spec : DistributionBucketSpec) : AggRange :=
  ⟨spec.key, spec.lower, spec.upper.map (· + 1)⟩

/-- The ranges of `buildDistributionsAggs` -/
def buildDistributionsAggs (dimension : Dimension) : List AggRange :=
  (distributionBuckets dimension).map aggRange

/-- Whether the aggregation counts a value in a range. -/
def AggRange.Counts (range : AggRange) (n : Int) : Prop :=
  range.from_ ≤ n ∧ ∀ stop ∈ range.to_, n < stop

def distributionTree (base : QueryAst) (dimension : Dimension) (spec : DistributionBucketSpec) :
    QueryAst :=
  intersectNumericRange (replaceEquality base .kind kindPullRequest) (dimensionQueryKey dimension)
    spec.lower (spec.upper.getD rangeUpperBound)

def distributionDrillDown (base : QueryAst) (dimension : Dimension)
    (spec : DistributionBucketSpec) : Text :=
  serializeQuery (distributionTree base dimension spec)

section Buckets

variable (engine : Engine) (zones : Zones) (resolution : NameResolution)
  (options : BuildQueryOptions)

/-- The distribution of the base query counts the document in the bucket. -/
def InBucket (base : QueryAst) (dimension : Dimension) (spec : DistributionBucketSpec)
    (document : MeasuredDocument) : Prop :=
  Matches engine zones resolution options analyticsTarget base document.toIndexedDocument ∧
    ∃ n, Json.number n ∈ document.fields (dimensionField dimension) ∧ (aggRange spec).Counts n

end Buckets

/-- In every index in which the bucket is not empty, its drill-down query is accepted and selects
exactly the documents in the bucket. -/
def DistributionAgrees (runtime : Runtime) (base : QueryAst) (dimension : Dimension)
    (spec : DistributionBucketSpec) : Prop :=
  ∀ (engine : Engine) (zones : Zones) (resolution : NameResolution) (options : BuildQueryOptions)
    (documents : List MeasuredDocument),
    (∃ document ∈ documents, InBucket engine zones resolution options base dimension spec document) →
    ∃ drilled, parseQuery runtime (distributionDrillDown base dimension spec) = .ok drilled ∧
      ∀ document ∈ documents,
        Matches engine zones resolution options searchTarget drilled document.toIndexedDocument ↔
          InBucket engine zones resolution options base dimension spec document

/-- Some index has a document in the bucket. -/
def Fillable (base : QueryAst) (dimension : Dimension) (spec : DistributionBucketSpec) : Prop :=
  ∃ (engine : Engine) (zones : Zones) (resolution : NameResolution) (options : BuildQueryOptions)
    (document : MeasuredDocument),
    InBucket engine zones resolution options base dimension spec document

/-! ### Values in ranges -/

def rangeHas (n : Int) : QueryFilter → Prop
  | .numeric _ _ lower upper => lower ≤ n ∧ n ≤ upper
  | _ => True

/-- The value lies within the first positive range of the key. -/
def InFirst (base : QueryAst) (key : NumericRangeKey) (n : Int) : Prop :=
  ∀ filter ∈ base.filters.find? (isRange key), rangeHas n filter

/-- The value lies within all positive ranges of the key. -/
def InPositive (base : QueryAst) (key : NumericRangeKey) (n : Int) : Prop :=
  ∀ filter ∈ base.filters, filter.key = .numeric key → filter.isNegated = false → rangeHas n filter

/-- The value lies outside all negated ranges of the key. -/
def OutNegated (base : QueryAst) (key : NumericRangeKey) (n : Int) : Prop :=
  ∀ filter ∈ base.filters, filter.key = .numeric key → filter.isNegated = true → ¬ rangeHas n filter

variable {key range : NumericRangeKey} {filter : QueryFilter} {lower upper : Int} {value : Text}

theorem isRange_iff :
    isRange key filter = true ↔ filter.key = .numeric key ∧ filter.isNegated = false := by
  cases filter with
  | numeric other negated => cases negated <;> simp [isRange, QueryFilter.key, QueryFilter.isNegated]
  | equality | temporal => simp [isRange, QueryFilter.key]

theorem isOrdinal_of_isRange {dimension : Dimension}
    (is : isRange (dimensionQueryKey dimension) filter = true) : isOrdinal filter = false := by
  rw [isOrdinal, (isRange_iff.mp is).1]
  cases dimension <;> decide

/-- The drill-down query asks for the values of the bucket that are in the first range. -/
theorem intersectBounds_iff {base : QueryAst} {n : Int} :
    (intersectBounds base key lower upper).1 ≤ n ∧ n ≤ (intersectBounds base key lower upper).2 ↔
      (lower ≤ n ∧ n ≤ upper) ∧ InFirst base key n := by
  unfold intersectBounds InFirst
  split
  next _ negated low high found =>
    simp only [found, Option.mem_some_iff, forall_eq', rangeHas]
    omega
  next other =>
    cases found : base.filters.find? (isRange key) with
    | none => simp
    | some filter =>
      obtain ⟨named, positive⟩ := isRange_iff.mp (List.find?_some found)
      cases filter with
      | numeric key' negated low high => exact absurd found (other _ _ _ _)
      | equality | temporal => cases named

theorem counts_iff {spec : DistributionBucketSpec} {n : Int} (least : n ≤ rangeUpperBound) :
    (aggRange spec).Counts n ↔ spec.lower ≤ n ∧ n ≤ spec.upper.getD rangeUpperBound := by
  obtain ⟨key, lower, upper⟩ := spec
  cases upper with
  | none => simp [AggRange.Counts, aggRange, least]
  | some upper => simp [AggRange.Counts, aggRange, Int.lt_add_one_iff]

section Values

variable {engine : Engine} {zones : Zones} {resolution : NameResolution}
  {document : MeasuredDocument} {dimension : Dimension} {n : Int}

/-- With a value, a condition on the dimension is about that value. -/
theorem holds_value (value : Json.number n ∈ document.fields (dimensionField dimension))
    (named : filter.key = .numeric (dimensionQueryKey dimension)) :
    Holds engine zones resolution document.toIndexedDocument filter ↔ rangeHas n filter := by
  cases filter with
  | numeric key negated lower upper =>
    obtain rfl : key = dimensionQueryKey dimension := by simpa [QueryFilter.key] using named
    rw [Holds, numericField_dimensionQueryKey]
    constructor
    · rintro ⟨m, inside, within⟩
      have same : Json.number m = Json.number n := document.single dimension _ inside _ value
      cases same
      exact within
    · exact fun within => ⟨n, value, within⟩
  | equality | temporal => cases named

end Values

/-! ### The tree of a bucket -/

theorem find?_replaceEquality {base : QueryAst} {key : EqualityKey} :
    (replaceEquality base key value).filters.find? (isRange range) =
      base.filters.find? (isRange range) := by
  have apart : (fun filter => decide ((!isEquality key filter) = true ∧ isRange range filter = true)) =
      isRange range := by
    funext filter
    cases filter <;> simp [isEquality, isRange]
  have other : [QueryFilter.equality key false [value]].find? (isRange range) = none := rfl
  rw [replaceEquality, adding, without, List.find?_append, List.find?_filter, apart, other,
    Option.or_none]

/-- The conditions that the drill-down query keeps. -/
def keptTree (base : QueryAst) (dimension : Dimension) : QueryAst :=
  without (isRange (dimensionQueryKey dimension)) (without (isEquality .kind) base)

theorem without_replaceEquality {base : QueryAst} {key : EqualityKey} :
    without (isRange range) (replaceEquality base key value) =
      adding (.equality key false [value]) (without (isRange range)
        (without (isEquality key) base)) :=
  without_adding rfl

section Trees

variable {engine : Engine} {zones : Zones} {resolution : NameResolution}
  {options : BuildQueryOptions} {document : IndexedDocument} {base : QueryAst}
  {dimension : Dimension} {spec : DistributionBucketSpec}

theorem isOrdinal_range (dimension : Dimension) (negated : Bool) (lower upper : Int) :
    isOrdinal (.numeric (dimensionQueryKey dimension) negated lower upper) = false := by
  cases dimension <;> rfl

theorem has_kindPullRequest :
    Has resolution document .kind kindPullRequest ↔ document.index = .pullRequests := by
  have known : kindAlias kindPullRequest = some .pullRequests := rfl
  rw [Has, known, Option.some.injEq, eq_comm]

/-- The drill-down query means the kept conditions, a pull request, and a value that is left. -/
theorem saysAll_distributionTree :
    SaysAll engine zones resolution options document (distributionTree base dimension spec) ↔
      SaysAll engine zones resolution options document (keptTree base dimension) ∧
        document.index = .pullRequests ∧
          ∃ n, Json.number n ∈ document.fields (dimensionField dimension) ∧
            (spec.lower ≤ n ∧ n ≤ spec.upper.getD rangeUpperBound) ∧
              InFirst base (dimensionQueryKey dimension) n := by
  have bounds : intersectBounds (replaceEquality base .kind kindPullRequest)
      (dimensionQueryKey dimension) spec.lower (spec.upper.getD rangeUpperBound) =
        intersectBounds base (dimensionQueryKey dimension) spec.lower
          (spec.upper.getD rangeUpperBound) := by
    rw [intersectBounds, find?_replaceEquality, intersectBounds]
  rw [distributionTree, intersectNumericRange, bounds, saysAll_adding (isOrdinal_range ..),
    Says.positive rfl, without_replaceEquality, saysAll_adding rfl, Says.positive rfl]
  simp only [Holds, List.mem_singleton, exists_eq_left, has_kindPullRequest,
    numericField_dimensionQueryKey, intersectBounds_iff, keptTree, and_assoc]

variable (dimension) in
/-- The base query means the kept conditions, and those that are left out. -/
theorem saysAll_kept :
    SaysAll engine zones resolution options document base ↔
      SaysAll engine zones resolution options document (keptTree base dimension) ∧
        (∀ filter ∈ base.filters, isRange (dimensionQueryKey dimension) filter = true →
          Says engine zones resolution document filter) ∧
        ∀ filter ∈ base.filters, isEquality .kind filter = true →
          Says engine zones resolution document filter := by
  refine saysAll_without_both (fun _ => isOrdinal_of_isRange) (fun _ => isOrdinal_of_isEquality) ?_
  intro filter is
  cases filter with
  | numeric => rfl
  | equality | temporal => cases is

theorem builds_distributionTree (builds : Builds zones resolution options base) :
    Builds zones resolution options (distributionTree base dimension spec) :=
  builds_adding (isOrdinal_range ..) (fun _ => ⟨_, rfl⟩)
    (builds_without (fun _ => isOrdinal_of_isRange) (builds_replaceEquality builds))

theorem safe_bounds (bucket : spec ∈ distributionBuckets dimension) :
    isSafeInteger spec.lower = true ∧ isSafeInteger (spec.upper.getD rangeUpperBound) = true := by
  revert spec
  cases dimension <;> decide

theorem isSafeInteger_iff {n : Int} :
    isSafeInteger n = true ↔ -maxSafeInteger ≤ n ∧ n ≤ maxSafeInteger := by
  simp [isSafeInteger]

theorem safe_intersectBounds {runtime : Runtime} {ast : QueryAst}
    (lawful : Lawful runtime ast.filters) (key : NumericRangeKey) (low : isSafeInteger lower = true)
    (high : isSafeInteger upper = true) :
    isSafeInteger (intersectBounds ast key lower upper).1 = true ∧
      isSafeInteger (intersectBounds ast key lower upper).2 = true := by
  unfold intersectBounds
  split
  next _ _ low' high' found =>
    obtain ⟨-, safe, safe', -⟩ := lawful.wellFormed _ (List.mem_of_find?_eq_some found)
    rw [isSafeInteger_iff] at low high safe safe' ⊢
    rw [isSafeInteger_iff]
    omega
  next => exact ⟨low, high⟩

/-- With a value that is left, the tree of a bucket can be read back. -/
theorem lawful_distributionTree {runtime : Runtime} (lawful : Lawful runtime base.filters)
    (bucket : spec ∈ distributionBuckets dimension) {n : Int}
    (within : spec.lower ≤ n ∧ n ≤ spec.upper.getD rangeUpperBound)
    (first : InFirst base (dimensionQueryKey dimension) n) :
    Lawful runtime (distributionTree base dimension spec).filters := by
  have replaced : Lawful runtime (replaceEquality base .kind kindPullRequest).filters :=
    lawful_replaceEquality lawful (by decide) rfl
  refine lawful_adding (lawful_without replaced _) ?_ (by rintro _ ⟨⟩)
  obtain ⟨low, high⟩ := safe_bounds bucket
  obtain ⟨low, high⟩ := safe_intersectBounds replaced (dimensionQueryKey dimension) low high
  have first : InFirst (replaceEquality base .kind kindPullRequest) (dimensionQueryKey dimension) n := by
    rwa [InFirst, find?_replaceEquality]
  obtain ⟨least, greatest⟩ := intersectBounds_iff.mpr ⟨within, first⟩
  refine ⟨Int.le_trans least greatest, low, high, ?_⟩
  cases dimension <;> rfl

end Trees

/-! ### The bucket -/

section Agreement

variable {engine : Engine} {zones : Zones} {resolution : NameResolution}
  {options : BuildQueryOptions} {runtime : Runtime} {base : QueryAst} {dimension : Dimension}
  {spec : DistributionBucketSpec}

theorem inBucket_iff (gathered : Gathered base.filters) (some_ : base.text ≠ some [])
    {document : MeasuredDocument} :
    InBucket engine zones resolution options base dimension spec document ↔
      document.index = .pullRequests ∧ Builds zones resolution options base ∧
        SaysAll engine zones resolution options document.toIndexedDocument base ∧
          ∃ n, Json.number n ∈ document.fields (dimensionField dimension) ∧
            spec.lower ≤ n ∧ n ≤ spec.upper.getD rangeUpperBound := by
  rw [InBucket, matches_iff gathered some_]
  simp only [analyticsTarget, List.mem_singleton, and_assoc]
  refine and_congr_right fun _ => and_congr_right fun _ => and_congr_right fun _ => ?_
  constructor
  · rintro ⟨n, value, counts⟩
    exact ⟨n, value, (counts_iff (document.bounded dimension n value)).mp counts⟩
  · rintro ⟨n, value, within⟩
    exact ⟨n, value, (counts_iff (document.bounded dimension n value)).mpr within⟩

/-- In terms of its value, a document is in the bucket if the kept conditions say so, and the value
lies in the bucket and in all positive ranges. -/
theorem inBucket_value (gathered : Gathered base.filters) (some_ : base.text ≠ some [])
    (builds : Builds zones resolution options base) {document : MeasuredDocument}
    (kinds : ∀ filter ∈ base.filters, isEquality .kind filter = true →
      Says engine zones resolution document.toIndexedDocument filter) {n : Int}
    (value : Json.number n ∈ document.fields (dimensionField dimension)) :
    InBucket engine zones resolution options base dimension spec document ↔
      document.index = .pullRequests ∧
        SaysAll engine zones resolution options document.toIndexedDocument
          (keptTree base dimension) ∧
        (spec.lower ≤ n ∧ n ≤ spec.upper.getD rangeUpperBound) ∧
          InPositive base (dimensionQueryKey dimension) n := by
  have positive : (∀ filter ∈ base.filters, isRange (dimensionQueryKey dimension) filter = true →
      Says engine zones resolution document.toIndexedDocument filter) ↔
        InPositive base (dimensionQueryKey dimension) n := by
    constructor
    · intro all filter inside named sign
      have said := all filter inside (isRange_iff.mpr ⟨named, sign⟩)
      exact (holds_value value named).mp ((Says.positive sign).mp said)
    · intro all filter inside is
      obtain ⟨named, sign⟩ := isRange_iff.mp is
      exact (Says.positive sign).mpr ((holds_value value named).mpr (all filter inside named sign))
  have only : (∃ m, Json.number m ∈ document.fields (dimensionField dimension) ∧
      spec.lower ≤ m ∧ m ≤ spec.upper.getD rangeUpperBound) ↔
        spec.lower ≤ n ∧ n ≤ spec.upper.getD rangeUpperBound := by
    constructor
    · rintro ⟨m, inside, within⟩
      have same : Json.number m = Json.number n := document.single dimension _ inside _ value
      cases same
      exact within
    · exact fun within => ⟨n, value, within⟩
  rw [inBucket_iff gathered some_, saysAll_kept dimension, positive, only]
  constructor
  · rintro ⟨index, -, ⟨kept, ranges, -⟩, within⟩
    exact ⟨index, kept, within, ranges⟩
  · rintro ⟨index, kept, within, ranges⟩
    exact ⟨index, builds, ⟨kept, ranges, kinds⟩, within⟩

/-- The kept conditions keep the value out of the negated ranges. -/
theorem outNegated_of_kept {document : MeasuredDocument}
    (kept : SaysAll engine zones resolution options document.toIndexedDocument
      (keptTree base dimension)) {n : Int}
    (value : Json.number n ∈ document.fields (dimensionField dimension)) :
    OutNegated base (dimensionQueryKey dimension) n := by
  intro filter inside named negated
  have stays : filter ∈ (keptTree base dimension).filters := by
    have noRange : isRange (dimensionQueryKey dimension) filter = false := by
      rw [Bool.eq_false_iff]
      intro is
      rw [(isRange_iff.mp is).2] at negated
      cases negated
    have noKind : isEquality .kind filter = false := by
      cases filter with
      | numeric | temporal => rfl
      | equality => cases named
    simp [keptTree, without, inside, noRange, noKind]
  have said := (Says.negated negated).mp (kept.filters filter stays)
  rwa [holds_value value named] at said

theorem inFirst_of_inPositive {n : Int}
    (positive : InPositive base (dimensionQueryKey dimension) n) :
    InFirst base (dimensionQueryKey dimension) n := by
  intro filter found
  obtain ⟨named, sign⟩ := isRange_iff.mp (List.find?_some found)
  exact positive filter (List.mem_of_find?_eq_some found) named sign

/-- Where the first range and the negated ones leave no value that another range excludes, the
drill-down query selects the documents of the bucket. -/
theorem agrees_of_ranges (lawful : Lawful runtime base.filters)
    (long : ∀ text ∈ base.text, minTextLength ≤ countCodePoints text) (some_ : base.text ≠ some [])
    (bucket : spec ∈ distributionBuckets dimension) (returns : TextReturns base.text)
    (ranges : ∀ n ≤ rangeUpperBound, (aggRange spec).Counts n →
      InFirst base (dimensionQueryKey dimension) n → OutNegated base (dimensionQueryKey dimension) n →
        InPositive base (dimensionQueryKey dimension) n) :
    DistributionAgrees runtime base dimension spec := by
  rintro engine zones resolution options documents ⟨filled, -, inside⟩
  have gathered := lawful.gathered
  obtain ⟨index, builds, said, n, value, within⟩ := (inBucket_iff gathered some_).mp inside
  have kinds : ∀ document : MeasuredDocument, document.index = .pullRequests →
      ∀ filter ∈ base.filters, isEquality .kind filter = true →
        Says engine zones resolution document.toIndexedDocument filter := by
    intro document same filter among is
    exact (says_kind is (index.trans same.symm)).mp (said.filters filter among)
  obtain ⟨-, -, -, positive⟩ :=
    (inBucket_value gathered some_ builds (kinds filled index) value).mp inside
  have tree := lawful_distributionTree lawful bucket within (inFirst_of_inPositive positive)
  refine ⟨distributionTree base dimension spec, parseQuery_serializeQuery tree long returns, ?_⟩
  intro document _
  have found : Matches engine zones resolution options searchTarget
      (distributionTree base dimension spec) document.toIndexedDocument ↔ _ :=
    matches_iff tree.gathered some_
  rw [found, saysAll_distributionTree]
  constructor
  · rintro ⟨-, -, kept, isPull, m, held, bounds, first⟩
    have most := document.bounded dimension m held
    rw [inBucket_value gathered some_ builds (kinds document isPull) held]
    exact ⟨isPull, kept, bounds, ranges m most ((counts_iff most).mpr bounds) first
      (outNegated_of_kept kept held)⟩
  · intro counted
    obtain ⟨isPull, -, -, m, held, -⟩ := (inBucket_iff gathered some_).mp counted
    obtain ⟨-, kept, bounds, positive⟩ :=
      (inBucket_value gathered some_ builds (kinds document isPull) held).mp counted
    refine ⟨?_, builds_distributionTree builds, kept, isPull, m, held, bounds,
      inFirst_of_inPositive positive⟩
    rw [isPull]
    decide

/-! ### Another engine, another document -/

/-- The engine with another analysis of texts. -/
def analysing (engine : Engine) (analyzed : String → List String → MatchType → Document → Bool) :
    Engine where
  analyzed := analyzed
  dated := engine.dated

theorem saysText_role {document : IndexedDocument} (said : SaysText engine document value)
    {other : IndexedDocument} (role : other.fields "role" = document.fields "role")
    {engine' : Engine}
    (analyzed : engine'.analyzed (String.ofList value) fullTextFields (textMatch value)
      other.fields = true) : SaysText engine' other value :=
  ⟨analyzed, by rw [role]; exact said.2⟩

/-- A document stays in the bucket with any analysis that its text passes. -/
theorem inBucket_analysing (gathered : Gathered base.filters) (some_ : base.text ≠ some [])
    {document : MeasuredDocument}
    (inside : InBucket engine zones resolution options base dimension spec document)
    {analyzed : String → List String → MatchType → Document → Bool}
    (passes : ∀ value ∈ base.text, analyzed (String.ofList value) fullTextFields (textMatch value)
      document.fields = true) :
    InBucket (analysing engine analyzed) zones resolution options base dimension spec document := by
  rw [inBucket_iff gathered some_] at inside ⊢
  obtain ⟨index, builds, said, within⟩ := inside
  refine ⟨index, builds, said.transfer (fun _ _ => rfl) ?_ ?_, within⟩
  · exact fun filter among => (says_engine rfl).mpr (said.filters filter among)
  · exact fun value is => saysText_role (said.text value is) rfl (passes value is)

/-- If the bucket agrees with its drill-down query, the text of the base query comes back. Another
text would be analysed otherwise, and no text lets documents through that the base query excludes. -/
theorem returns_of_agrees (lawful : Lawful runtime base.filters) (some_ : base.text ≠ some [])
    (bucket : spec ∈ distributionBuckets dimension) (fillable : Fillable base dimension spec)
    (agrees : DistributionAgrees runtime base dimension spec) : TextReturns base.text := by
  obtain ⟨engine, zones, resolution, options, document, inside⟩ := fillable
  have gathered := lawful.gathered
  obtain ⟨index, builds, said, n, held, within⟩ := (inBucket_iff gathered some_).mp inside
  obtain ⟨-, -, -, positive⟩ := (inBucket_value gathered some_ builds
    (fun filter among _ => said.filters filter among) held).mp inside
  have tree := lawful_distributionTree lawful bucket within (inFirst_of_inPositive positive)
  by_contra lost
  obtain ⟨value, text⟩ : ∃ value, base.text = some value := by
    cases text : base.text with
    | none => exact absurd (by rw [text]; rintro _ ⟨⟩) lost
    | some value => exact ⟨value, rfl⟩
  -- with an engine that matches this text and no other, the text that is read cannot be another one
  have exactly : InBucket (analysing engine fun query _ _ _ => query = String.ofList value) zones
      resolution options base dimension spec document :=
    inBucket_analysing gathered some_ inside (by simp [text])
  obtain ⟨drilled, read, same⟩ :=
    agrees _ _ _ _ [document] ⟨document, List.mem_cons_self, exactly⟩
  obtain ⟨gathered', some_'⟩ := gathered_of_parseQuery read
  have differs : drilled.text ≠ base.text := by
    intro equal
    have returns : TextReturns (distributionTree base dimension spec).text :=
      returns_of_parseQuery tree read equal
    exact lost returns
  obtain ⟨-, -, drills⟩ :=
    (matches_iff gathered' some_').mp ((same document List.mem_cons_self).mpr exactly)
  cases read_text : drilled.text with
  | some other =>
    have analyzed := (drills.text other read_text).1
    simp only [analysing, decide_eq_true_eq] at analyzed
    rw [read_text, text, String.ofList_injective analyzed] at differs
    exact differs rfl
  | none =>
    -- without a text a document is found that differs in its title, of which the engine knows
    let other := document.withTitle (.null :: document.fields "title")
    have titled : InBucket (analysing engine fun _ _ _ fields => fields "title" =
        document.fields "title") zones resolution options base dimension spec document :=
      inBucket_analysing gathered some_ inside (by simp)
    obtain ⟨again, read', same'⟩ :=
      agrees _ _ _ _ [document, other] ⟨document, List.mem_cons_self, titled⟩
    rw [read] at read'
    cases read'
    obtain ⟨within', builds', drills'⟩ :=
      (matches_iff gathered' some_').mp ((same' document List.mem_cons_self).mpr titled)
    have untouched : ∀ field ≠ "title", document.fields field = other.fields field :=
      fun field different => (setField_of_ne different).symm
    have found : Matches (analysing engine fun _ _ _ fields => fields "title" =
        document.fields "title") zones resolution options searchTarget drilled
          other.toIndexedDocument := by
      refine (matches_iff gathered' some_').mpr ⟨within', builds', drills'.transfer ?_ ?_ ?_⟩
      · intro field among
        refine untouched field ?_
        rintro rfl
        revert among
        decide
      · intro filter among
        have alike : ∀ field ∈ reads filter.key, document.fields field = other.fields field := by
          intro field among'
          refine untouched field ?_
          rintro rfl
          exact title_not_read _ among'
        have transfers : Says (analysing engine fun _ _ _ fields => fields "title" =
              document.fields "title") zones resolution document.toIndexedDocument filter ↔
            Says (analysing engine fun _ _ _ fields => fields "title" =
              document.fields "title") zones resolution other.toIndexedDocument filter :=
          says_congr rfl alike
        exact transfers.mp (drills'.filters filter among)
      · rw [read_text]
        rintro _ ⟨⟩
    obtain ⟨-, -, said', -⟩ := (inBucket_iff gathered some_).mp
      ((same' other (List.mem_cons_of_mem _ List.mem_cons_self)).mp found)
    have analyzed := (said'.text value text).1
    simp [analysing, other, MeasuredDocument.withTitle, setField] at analyzed

/-- If the bucket agrees with its drill-down query, every value that the query asks for lies in all
ranges: the document of the bucket with that value in its place is found. -/
theorem inPositive_of_agrees (lawful : Lawful runtime base.filters)
    (long : ∀ text ∈ base.text, minTextLength ≤ countCodePoints text) (some_ : base.text ≠ some [])
    (bucket : spec ∈ distributionBuckets dimension) (fillable : Fillable base dimension spec)
    (agrees : DistributionAgrees runtime base dimension spec) (returns : TextReturns base.text)
    {n : Int} (least : n ≤ rangeUpperBound) (counts : (aggRange spec).Counts n)
    (first : InFirst base (dimensionQueryKey dimension) n)
    (outside : OutNegated base (dimensionQueryKey dimension) n) :
    InPositive base (dimensionQueryKey dimension) n := by
  obtain ⟨engine, zones, resolution, options, document, inside⟩ := fillable
  have gathered := lawful.gathered
  have passes : InBucket (analysing engine fun _ _ _ _ => true) zones resolution options base
      dimension spec document := inBucket_analysing gathered some_ inside (by simp)
  obtain ⟨index, builds, said, m, held, within⟩ := (inBucket_iff gathered some_).mp passes
  have kinds : ∀ filter ∈ base.filters, isEquality .kind filter = true →
      Says (analysing engine fun _ _ _ _ => true) zones resolution document.toIndexedDocument filter :=
    fun filter among _ => said.filters filter among
  obtain ⟨-, kept, -, -⟩ := (inBucket_value gathered some_ builds kinds held).mp passes
  let other := document.withCount dimension n least
  have held' : Json.number n ∈ other.fields (dimensionField dimension) := by
    simp [other, MeasuredDocument.withCount, setField]
  obtain ⟨drilled, read, same⟩ :=
    agrees _ _ _ _ [document, other] ⟨document, List.mem_cons_self, passes⟩
  have bounds := (counts_iff least).mp counts
  have tree := lawful_distributionTree lawful bucket bounds first
  have written : parseQuery runtime (distributionDrillDown base dimension spec) = .ok _ :=
    parseQuery_serializeQuery tree long returns
  rw [written] at read
  cases read
  have untouched : ∀ field ≠ dimensionField dimension, document.fields field = other.fields field :=
    fun field different => (setField_of_ne different).symm
  have found : SaysAll (analysing engine fun _ _ _ _ => true) zones resolution options
      other.toIndexedDocument (keptTree base dimension) := by
    refine kept.transfer ?_ ?_ ?_
    · intro field among
      refine untouched field ?_
      rintro rfl
      revert among
      cases dimension <;> decide
    · intro filter among
      by_cases named : filter.key = .numeric (dimensionQueryKey dimension)
      · -- only negated ranges of the dimension are kept
        have stays := among
        simp only [keptTree, without, List.mem_filter] at stays
        have negated : filter.isNegated = true := by
          cases sign : filter.isNegated with
          | true => rfl
          | false => simp [isRange_iff.mpr ⟨named, sign⟩] at stays
        rw [Says.negated negated, holds_value held' named]
        exact outside filter stays.1.1 named negated
      · have alike : ∀ field ∈ reads filter.key, document.fields field = other.fields field := by
          intro field among'
          refine untouched field ?_
          rintro rfl
          exact dimensionField_not_read named among'
        have transfers : Says (analysing engine fun _ _ _ _ => true) zones resolution
              document.toIndexedDocument filter ↔
            Says (analysing engine fun _ _ _ _ => true) zones resolution
              other.toIndexedDocument filter := says_congr rfl alike
        exact transfers.mp (kept.filters filter among)
    · exact fun value is => saysText_role (said.text value is)
        (untouched "role" (by cases dimension <;> decide)).symm rfl
  have counted := (same other (List.mem_cons_of_mem _ List.mem_cons_self)).mp <|
    (matches_iff tree.gathered some_).mpr ⟨by rw [show other.index = _ from index]; decide,
      builds_distributionTree builds, saysAll_distributionTree.mpr
        ⟨found, index, n, held', bounds, first⟩⟩
  have kinds' : ∀ filter ∈ base.filters, isEquality .kind filter = true →
      Says (analysing engine fun _ _ _ _ => true) zones resolution other.toIndexedDocument filter := by
    intro filter among is
    have alike : other.index = document.index := rfl
    exact (says_kind is alike).mpr (said.filters filter among)
  exact ((inBucket_value gathered some_ builds kinds' held').mp counted).2.2.2

end Agreement

/-- The drill-down query of a bucket selects the documents in it, in every index in which there are
some, exactly when the text of the base query comes back and every value of the bucket in its first
positive range on the dimension, outside the negated ones, lies in all its positive ranges. -/
theorem distributionAgrees_iff {runtime : Runtime} (canonical : runtime.Canonical) {input : Text}
    {base : QueryAst} (accepted : parseQuery runtime input = .ok base) {dimension : Dimension}
    {spec : DistributionBucketSpec} (bucket : spec ∈ distributionBuckets dimension)
    (fillable : Fillable base dimension spec) :
    DistributionAgrees runtime base dimension spec ↔
      TextReturns base.text ∧ ∀ n ≤ rangeUpperBound, (aggRange spec).Counts n →
        InFirst base (dimensionQueryKey dimension) n →
          OutNegated base (dimensionQueryKey dimension) n →
            InPositive base (dimensionQueryKey dimension) n := by
  obtain ⟨lawful, long⟩ := lawful_of_parseQuery canonical accepted
  have some_ := (gathered_of_parseQuery accepted).2
  constructor
  · intro agrees
    have returns := returns_of_agrees lawful some_ bucket fillable agrees
    exact ⟨returns, fun n least counts first outside =>
      inPositive_of_agrees lawful long some_ bucket fillable agrees returns least counts first
        outside⟩
  · rintro ⟨returns, ranges⟩
    exact agrees_of_ranges lawful long some_ bucket returns ranges

/-- A pull request with a count of changed files. -/
def measuredDocument (files : Int) (least : files ≤ rangeUpperBound) : MeasuredDocument where
  toIndexedDocument := countedDocument files
  single := by
    intro dimension one inside other inside'
    cases dimension with
    | changedFiles => rw [List.mem_singleton.mp inside, List.mem_singleton.mp inside']
    | changedLines => cases inside
  bounded := by
    intro dimension n inside
    cases dimension with
    | changedFiles =>
      have same : n = files := by simpa using List.mem_singleton.mp inside
      exact same ▸ least
    | changedLines => cases inside

/-- The one range of this query leaves the values of the bucket from 2 to 5 alone. -/
theorem distributionAgrees_ranged :
    DistributionAgrees seoulRuntime ⟨[.numeric .changedFiles false 1 10], none⟩ .changedFiles
      ⟨"2-5", 2, some 5⟩ := by
  have accepted : parseQuery seoulRuntime "changed_files:1..10".toList =
      .ok ⟨[.numeric .changedFiles false 1 10], none⟩ := rfl
  have filled : Fillable ⟨[.numeric .changedFiles false 1 10], none⟩ .changedFiles
      ⟨"2-5", 2, some 5⟩ := by
    refine ⟨silentEngine, fun _ => none, emptyResolution, {}, measuredDocument 3 (by decide), ?_, 3,
      List.mem_singleton.mpr rfl, by decide, by simp [aggRange]⟩
    exact ⟨⟨[.pullRequests], rfl, by decide⟩,
      ⟨.bool [] [.range "changed_files_count" ⟨some (.number 1), some (.number 10), none⟩] [] [] 0,
        []⟩, rfl, by decide⟩
  refine (distributionAgrees_iff seoulRuntime_canonical accepted (by decide) filled).mpr
    ⟨by rintro _ ⟨⟩, ?_⟩
  intro n _ _ first _ filter inside _ _
  obtain rfl := List.mem_singleton.mp inside
  exact first _ rfl

/-- Of two ranges the drill-down query keeps the first one: it finds a pull request with 5 changed
files, which the second range excludes. -/
theorem secondRange_not_kept :
    ¬ ∀ (runtime : Runtime) (input : Text) (base : QueryAst) (dimension : Dimension)
      (spec : DistributionBucketSpec), runtime.Canonical → parseQuery runtime input = .ok base →
      spec ∈ distributionBuckets dimension → DistributionAgrees runtime base dimension spec := by
  intro all
  have claimed := all seoulRuntime "changed_files:1..10 changed_files:2..3".toList
    ⟨[.numeric .changedFiles false 1 10, .numeric .changedFiles false 2 3], none⟩ .changedFiles
    ⟨"2-5", 2, some 5⟩ seoulRuntime_canonical rfl (by decide)
  have counted : InBucket silentEngine (fun _ => none) emptyResolution {}
      ⟨[.numeric .changedFiles false 1 10, .numeric .changedFiles false 2 3], none⟩ .changedFiles
      ⟨"2-5", 2, some 5⟩ (measuredDocument 2 (by decide)) := by
    refine ⟨⟨⟨[.pullRequests], rfl, by decide⟩, ⟨rangesQuery 1 10 2 3, []⟩, rfl, by decide⟩, 2,
      List.mem_singleton.mpr rfl, by decide, by simp [aggRange]⟩
  obtain ⟨drilled, read, same⟩ := claimed silentEngine (fun _ => none) emptyResolution {}
    [measuredDocument 2 (by decide), measuredDocument 5 (by decide)]
    ⟨_, List.mem_cons_self, counted⟩
  have written : parseQuery seoulRuntime (distributionDrillDown
      ⟨[.numeric .changedFiles false 1 10, .numeric .changedFiles false 2 3], none⟩ .changedFiles
      ⟨"2-5", 2, some 5⟩) =
        .ok ⟨[.equality .kind false [kindPullRequest], .numeric .changedFiles false 2 5], none⟩ := rfl
  rw [written] at read
  cases read
  have found : Matches silentEngine (fun _ => none) emptyResolution {} searchTarget
      ⟨[.equality .kind false [kindPullRequest], .numeric .changedFiles false 2 5], none⟩
      (measuredDocument 5 (by decide)).toIndexedDocument :=
    ⟨⟨[.pullRequests], rfl, by decide⟩,
      ⟨.bool [] [.range "changed_files_count" ⟨some (.number 2), some (.number 5), none⟩] [] [] 0,
        []⟩, rfl, by decide⟩
  obtain ⟨⟨-, built, made, admits⟩, -⟩ :=
    (same _ (List.mem_cons_of_mem _ List.mem_cons_self)).mp found
  have made' : buildQuery (fun _ => none) (resolveSearchTarget
      ⟨[.numeric .changedFiles false 1 10, .numeric .changedFiles false 2 3], none⟩
      analyticsTarget).ast emptyResolution {} = .ok ⟨rangesQuery 1 10 2 3, []⟩ := rfl
  rw [made'] at made
  cases made
  exact absurd admits (by decide)

end PrSearch.Search
