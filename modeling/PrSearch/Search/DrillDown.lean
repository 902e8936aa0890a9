import PrSearch.Search.Matching

/-! # From a bucket to the documents in it

The rows of an aggregation carry a query for the documents that they count. It is the base query with
its conditions on the kind replaced by `kind:pull_request`, and with the condition of the bucket in
the place of its own on the same key: replaced for a group, intersected for a range. The query is
written out and has to be read back.
-/
namespace PrSearch.Search

open Lib Index Query

/-- What aggregations count. -/
def analyticsTarget : List EntityAlias := [.pullRequests]

/-- What the drill-down query searches. -/
def searchTarget : List EntityAlias := [.pullRequests, .commits]

/-! ### Rewriting -/

/-- `one.key === key && one.op === 'eq'` -/
def isEquality (key : EqualityKey) : QueryFilter → Bool
  | .equality other false _ => other = key
  | _ => false

/-- `one.key === key && one.op === 'range'` -/
def isRange (key : NumericRangeKey) : QueryFilter → Bool
  | .numeric other false _ _ => other = key
  | _ => false

def replaceEquality (ast : QueryAst) (key : EqualityKey) (value : Text) : QueryAst :=
  adding (.equality key false [value]) (without (isEquality key) ast)

/-- The bounds that are left of the first range of the key. -/
def intersectBounds (ast : QueryAst) (key : NumericRangeKey) (lower upper : Int) : Int × Int :=
  match ast.filters.find? (isRange key) with
  | some (.numeric _ _ low high) => (max low lower, min high upper)
  | _ => (lower, upper)

def intersectNumericRange (ast : QueryAst) (key : NumericRangeKey) (lower upper : Int) : QueryAst :=
  let (low, high) := intersectBounds ast key lower upper
  adding (.numeric key false low high) (without (isRange key) ast)

def kindPullRequest : Text := "pull_request".toList

variable {key : EqualityKey} {filter : QueryFilter}

theorem isOrdinal_of_isEquality (is : isEquality key filter = true) : isOrdinal filter = false := by
  cases filter with
  | equality => rfl
  | numeric | temporal => cases is

variable {runtime : Runtime} {value : Text} {engine' : Engine}

theorem lawful_without {ast : QueryAst} (lawful : Lawful runtime ast.filters)
    (p : QueryFilter → Bool) : Lawful runtime (without p ast).filters := by
  refine ⟨fun filter inside => lawful.wellFormed filter (List.mem_of_mem_filter inside), ?_⟩
  exact lawful.apart.sublist (List.filter_sublist.filterMap slot)

theorem lawful_adding {ast : QueryAst} (lawful : Lawful runtime ast.filters)
    (made : WellFormed runtime filter)
    (new : ∀ place ∈ slot filter, ∀ other ∈ ast.filters, slot other ≠ some place) :
    Lawful runtime (adding filter ast).filters := by
  constructor
  · intro other inside
    rcases List.mem_append.mp inside with old | inside
    · exact lawful.wellFormed other old
    · exact (List.mem_singleton.mp inside) ▸ made
  · cases placed : slot filter with
    | none => simpa [adding, placed] using lawful.apart
    | some place =>
      have absent : place ∉ ast.filters.filterMap slot := by
        intro taken
        obtain ⟨other, inside, same⟩ := List.mem_filterMap.mp taken
        exact new place placed other inside same
      simpa [adding, placed] using
        lawful.apart.append (List.nodup_singleton place) (by simpa using absent)

/-- A tree with an equality condition replaced can be read back. -/
theorem lawful_replaceEquality {ast : QueryAst} (lawful : Lawful runtime ast.filters)
    (some_ : value ≠ []) (allowed : checkEnumeratedValue key value = .ok ()) :
    Lawful runtime (replaceEquality ast key value).filters := by
  refine lawful_adding (lawful_without lawful (isEquality key)) ?_ ?_
  · refine ⟨by simp, List.nodup_singleton value, fun other inside => ?_⟩
    obtain rfl := List.mem_singleton.mp inside
    exact ⟨some_, allowed⟩
  · rintro _ ⟨⟩ other inside placed
    have kept := List.of_mem_filter inside
    cases other with
    | equality other negated values =>
      cases placed
      simp [isEquality] at kept
    | numeric | temporal => cases placed

section Saying

variable {engine : Engine} {zones : Zones} {resolution : NameResolution}
  {options : BuildQueryOptions} {document : IndexedDocument} {ast : QueryAst}

theorem saysAll_replaceEquality :
    SaysAll engine zones resolution options document (replaceEquality ast key value) ↔
      SaysAll engine zones resolution options document (without (isEquality key) ast) ∧
        Has resolution document key value := by
  rw [replaceEquality, saysAll_adding rfl, Says.positive rfl]
  simp [Holds]

theorem builds_replaceEquality (builds : Builds zones resolution options ast) :
    Builds zones resolution options (replaceEquality ast key value) := by
  refine builds_adding rfl ?_ (builds_without (fun _ => isOrdinal_of_isEquality) builds)
  cases key <;> first | exact fun _ => ⟨_, rfl⟩ | exact fun other => by cases other

/-- What a tree says beyond the tree without conditions of two sorts is what these say. -/
theorem saysAll_without_both {p q : QueryFilter → Bool}
    (freeP : ∀ filter, p filter = true → isOrdinal filter = false)
    (freeQ : ∀ filter, q filter = true → isOrdinal filter = false)
    (apart : ∀ filter, p filter = true → q filter = false) :
    SaysAll engine zones resolution options document ast ↔
      SaysAll engine zones resolution options document (without p (without q ast)) ∧
        (∀ filter ∈ ast.filters, p filter = true →
          Says engine zones resolution document filter) ∧
        ∀ filter ∈ ast.filters, q filter = true →
          Says engine zones resolution document filter := by
  rw [saysAll_without freeQ, saysAll_without freeP, and_assoc]
  refine and_congr_right fun _ => and_congr_left fun _ => ?_
  constructor
  · intro all filter inside is
    exact all filter (List.mem_filter.mpr ⟨inside, by simp [apart filter is]⟩) is
  · exact fun all filter inside => all filter (List.mem_of_mem_filter inside)

end Saying

/-! ### Frames -/

/-- The fields that a condition on a key reads. -/
def reads : QueryKey → List String
  | .equality .repo => ["repository"]
  | .equality .org => ["org_id"]
  | .equality .author => ["author"]
  | .equality .team => ["allowed_team_ids"]
  | .equality .authorTeam => ["author_team_ids"]
  | .equality .reviewer => ["reviewers"]
  | .equality .label => ["labels"]
  | .equality .base => ["base_branch"]
  | .equality .head => ["head_branch"]
  | .equality .state => ["state"]
  | .equality .release => ["release_tags"]
  | .equality .path => ["changed_paths"]
  | .equality .is => ["link_summary.is_reverted", "state"]
  | .equality .kind => []
  | .numeric key => [numericField key]
  | .temporal key => [temporalField key]

section Frames

variable {engine : Engine} {zones : Zones} {resolution : NameResolution}
  {options : BuildQueryOptions} {document other : IndexedDocument}

/-- A condition says the same of documents that agree on the fields it reads. -/
theorem says_congr (index : document.index = other.index)
    (same : ∀ field ∈ reads filter.key, document.fields field = other.fields field) :
    Says engine zones resolution document filter ↔ Says engine zones resolution other filter := by
  have holds : Holds engine zones resolution document filter ↔
      Holds engine zones resolution other filter := by
    cases filter with
    | equality key negated values =>
      have has : ∀ value, Has resolution document key value ↔ Has resolution other key value := by
        intro value
        cases key <;>
          simp only [QueryFilter.key, reads, List.forall_mem_cons, List.not_mem_nil,
            false_implies, implies_true, and_true] at same <;>
          simp only [Has, HasTeam, same, index]
      simp only [Holds, has]
    | numeric key negated lower upper =>
      simp only [Holds, same (numericField key) List.mem_cons_self]
    | temporal key negated lower upper timezone =>
      simp only [Holds, same (temporalField key) List.mem_cons_self]
  unfold Says
  split
  · exact not_congr holds
  · exact holds

/-- The fields that the spaces of numbers read. -/
def spaceFields : List String := ["seq_epoch", "merge_number_epoch", "base_branch"]

/-- What a tree says of one document it says of another one in the same spaces, if its conditions and
its text do. -/
theorem SaysAll.transfer {ast : QueryAst}
    (said : SaysAll engine zones resolution options document ast)
    (same : ∀ field ∈ spaceFields, document.fields field = other.fields field)
    (filters : ∀ filter ∈ ast.filters, Says engine' zones resolution other filter)
    (text : ∀ value ∈ ast.text, SaysText engine' other value) :
    SaysAll engine' zones resolution options other ast := by
  refine ⟨filters, text, fun ranged => ?_, fun ranged => ?_⟩
  · have ordinals := said.sequence ranged
    rwa [InSequenceSpace, same "seq_epoch" (by decide)] at ordinals
  · have numbers := said.mergeNumber ranged
    rwa [InMergeNumberSpace, same "merge_number_epoch" (by decide),
      same "base_branch" (by decide)] at numbers

/-- The engine matters to times and to the text only. -/
theorem says_engine (dated : engine'.dated = engine.dated) :
    Says engine' zones resolution document filter ↔
      Says engine zones resolution document filter := by
  have holds : Holds engine' zones resolution document filter ↔
      Holds engine zones resolution document filter := by
    cases filter <;> simp only [Holds, dated]
  unfold Says
  split
  · exact not_congr holds
  · exact holds

/-- A condition on the kind is about the index alone. -/
theorem says_kind (is : isEquality .kind filter = true) (index : document.index = other.index) :
    Says engine zones resolution document filter ↔ Says engine' zones resolution other filter := by
  cases filter with
  | equality key negated values =>
    cases negated with
    | false =>
      obtain rfl : key = .kind := by simpa [isEquality] using is
      simp only [Says, QueryFilter.isNegated, Bool.false_eq_true, if_false, Holds, Has, index]
    | true => cases is
  | numeric | temporal => cases is

theorem title_not_read (key : QueryKey) : "title" ∉ reads key := by
  rcases key with key | key | key <;> cases key <;> decide

end Frames

/-! ### Documents with counts -/

/-- The dimensions of distributions. -/
inductive Dimension
  | changedFiles
  | changedLines
  deriving DecidableEq, Repr

/-- `DIMENSION_FIELDS` -/
def dimensionField : Dimension → String
  | .changedFiles => "changed_files_count"
  | .changedLines => "changed_lines"

/-- `DIMENSION_QUERY_KEYS` -/
def dimensionQueryKey : Dimension → NumericRangeKey
  | .changedFiles => .changedFiles
  | .changedLines => .changedLines

@[simp] theorem numericField_dimensionQueryKey (dimension : Dimension) :
    numericField (dimensionQueryKey dimension) = dimensionField dimension := by
  cases dimension <;> rfl

/-- The greatest value of the type `integer` -/
def rangeUpperBound : Int := 2147483647

/-- A document with one count of each dimension at most, of the type `integer`. -/
structure MeasuredDocument extends IndexedDocument where
  single : ∀ dimension, ∀ one ∈ fields (dimensionField dimension),
    ∀ other ∈ fields (dimensionField dimension), one = other
  bounded : ∀ dimension n, Json.number n ∈ fields (dimensionField dimension) → n ≤ rangeUpperBound

/-- The fields with another list of values in one of them. -/
def setField (fields : Document) (name : String) (values : List Json) : Document :=
  fun field => if field = name then values else fields field

theorem setField_of_ne {fields : Document} {name field : String} {values : List Json}
    (different : field ≠ name) : setField fields name values field = fields field :=
  if_neg different

/-- The same document with another title. -/
def MeasuredDocument.withTitle (document : MeasuredDocument) (title : List Json) :
    MeasuredDocument where
  index := document.index
  fields := setField document.fields "title" title
  numbers := by
    intro key
    rw [setField_of_ne (by cases key <;> decide)]
    exact document.numbers key
  times := by
    intro key
    rw [setField_of_ne (by cases key <;> decide)]
    exact document.times key
  single := by
    intro dimension
    rw [setField_of_ne (by cases dimension <;> decide)]
    exact document.single dimension
  bounded := by
    intro dimension
    rw [setField_of_ne (by cases dimension <;> decide)]
    exact document.bounded dimension

/-- The same document with another count. -/
def MeasuredDocument.withCount (document : MeasuredDocument) (dimension : Dimension) (n : Int)
    (least : n ≤ rangeUpperBound) : MeasuredDocument where
  index := document.index
  fields := setField document.fields (dimensionField dimension) [.number n]
  numbers := by
    intro key value inside
    unfold setField at inside
    split at inside
    · exact ⟨n, List.mem_singleton.mp inside⟩
    · exact document.numbers key value inside
  times := by
    intro key
    rw [setField_of_ne (by cases key <;> cases dimension <;> decide)]
    exact document.times key
  single := by
    intro other
    unfold setField
    split
    · intro one inside two inside'
      rw [List.mem_singleton.mp inside, List.mem_singleton.mp inside']
    · exact document.single other
  bounded := by
    intro other m
    unfold setField
    split
    · intro inside
      have same : m = n := by simpa using inside
      exact same ▸ least
    · exact document.bounded other m

/-- The field of a dimension is read by the ranges of the dimension alone. -/
theorem dimensionField_not_read {dimension : Dimension} {key : QueryKey}
    (other : key ≠ .numeric (dimensionQueryKey dimension)) : dimensionField dimension ∉ reads key := by
  rcases key with key | key | key
  · cases dimension <;> cases key <;> decide
  · cases dimension <;> cases key <;> first | decide | exact absurd rfl other
  · cases dimension <;> cases key <;> decide

end PrSearch.Search
