import PrSearch.Search.DrillDown

/-! # Groups

The pull requests that a query matches are counted by the values of one field. The row of a value
carries the query for the pull requests in it: the positive conditions of the base query on the key
are replaced by the one value. Organisations and teams are grouped by their identifiers and asked for
by their names, so that their values pass through the registry both ways.
-/
namespace PrSearch.Search

open Lib Index Query

inductive GroupKey
  | repository
  | org
  | team
  | author
  | label
  | baseBranch
  | state
  deriving DecidableEq, Repr

/-- `GROUP_FIELDS` -/
def groupField : GroupKey → String
  | .repository => "repository"
  | .org => "org_id"
  | .team => "author_team_ids"
  | .author => "author"
  | .label => "labels"
  | .baseBranch => "base_branch"
  | .state => "state"

/-- `GROUP_QUERY_KEYS` -/
def groupQueryKey : GroupKey → EqualityKey
  | .repository => .repo
  | .org => .org
  | .team => .authorTeam
  | .author => .author
  | .label => .label
  | .baseBranch => .base
  | .state => .state

/-- `MULTI_VALUE_GROUPS` -/
def multiValueGroups : List GroupKey := [.team, .label]

/-- A document with the types of the fields that it is grouped by. -/
structure GroupedDocument extends IndexedDocument where
  single : ∀ key ∉ multiValueGroups, ∀ one ∈ fields (groupField key),
    ∀ other ∈ fields (groupField key), one = other

/-! ### The registry -/

/-- The owners with their organisations, and the teams with their slugs. -/
structure Registry where
  repositories : List (Text × Int)
  teams : List (Int × Text)

namespace Registry

variable (registry : Registry)

def resolveOrgIds (owner : Text) : Option Int := registry.repositories.reverse.lookup owner

def resolveTeamIds (slug : Text) : Option (List Int) :=
  match (registry.teams.filter fun team => team.2 = slug).map (·.1) with
  | [] => none
  | ids => some ids

def resolveOrgOwners (id : Int) : Option Text :=
  (registry.repositories.map Prod.swap).reverse.lookup id

def resolveTeamSlugs (id : Int) : Option Text := registry.teams.reverse.lookup id

def resolution : NameResolution := ⟨registry.resolveOrgIds, registry.resolveTeamIds⟩

/-- `displayFor`: only organisations and teams have names. -/
def displayFor : GroupKey → Int → Option Text
  | .org => registry.resolveOrgOwners
  | .team => registry.resolveTeamSlugs
  | _ => fun _ => none

/-- The key of a row: `input.display?.get(raw) ?? raw` -/
def rowKey (key : GroupKey) : Json → Text
  | .number id => (registry.displayFor key id).getD (renderNumber id)
  | .string name => name.toList
  | _ => []

end Registry

/-! ### The query of a row -/

def groupTree (registry : Registry) (base : QueryAst) (key : GroupKey) (raw : Json) : QueryAst :=
  replaceEquality (replaceEquality base .kind kindPullRequest) (groupQueryKey key)
    (registry.rowKey key raw)

/-- `drillDownQuery` -/
def drillDownQuery (registry : Registry) (base : QueryAst) (key : GroupKey) (raw : Json) : Text :=
  serializeQuery (groupTree registry base key raw)

/-- The aggregation has a bucket for this value: names, or numbers where identifiers are grouped. -/
def IsBucketKey : GroupKey → Json → Prop
  | .org, raw | .team, raw => ∃ id, raw = .number id
  | _, raw => ∃ name, raw = text name

section Buckets

variable (engine : Engine) (zones : Zones) (resolution : NameResolution)
  (options : BuildQueryOptions)

/-- The aggregation of the base query counts the document in the bucket of the value. -/
def InGroup (base : QueryAst) (key : GroupKey) (raw : Json) (document : GroupedDocument) : Prop :=
  Matches engine zones resolution options analyticsTarget base document.toIndexedDocument ∧
    raw ∈ document.fields (groupField key)

end Buckets

/-- In every index with the bucket, its drill-down query is accepted and selects exactly the documents
in the bucket. -/
def GroupAgrees (runtime : Runtime) (registry : Registry) (base : QueryAst) (key : GroupKey)
    (raw : Json) : Prop :=
  ∀ (engine : Engine) (zones : Zones) (options : BuildQueryOptions)
    (documents : List GroupedDocument),
    (∃ document ∈ documents,
      InGroup engine zones registry.resolution options base key raw document) →
    ∃ drilled, parseQuery runtime (drillDownQuery registry base key raw) = .ok drilled ∧
      ∀ document ∈ documents,
        Matches engine zones registry.resolution options searchTarget drilled
            document.toIndexedDocument ↔
          InGroup engine zones registry.resolution options base key raw document

/-- The drill-down query is accepted and selects no document of any index. -/
def FindsNothing (runtime : Runtime) (registry : Registry) (base : QueryAst) (key : GroupKey)
    (raw : Json) : Prop :=
  ∃ drilled, parseQuery runtime (drillDownQuery registry base key raw) = .ok drilled ∧
    ∀ (engine : Engine) (zones : Zones) (options : BuildQueryOptions) (document : IndexedDocument),
      ¬ Matches engine zones registry.resolution options searchTarget drilled document

/-! ### Names -/

/-- An identifier has a name in the registry, and its names are those of no other identifier. Other
values are their own names. -/
def Registry.Names (registry : Registry) : GroupKey → Json → Prop
  | .org, .number id =>
      (∃ owner, (owner, id) ∈ registry.repositories) ∧
        ∀ owner other, (owner, id) ∈ registry.repositories →
          (owner, other) ∈ registry.repositories → other = id
  | .team, .number id =>
      (∃ slug, (id, slug) ∈ registry.teams) ∧
        ∀ slug other, (id, slug) ∈ registry.teams → (other, slug) ∈ registry.teams → other = id
  | _, _ => True

/-- The registry has no name for the identifier, and its number is no name. -/
def Registry.Unknown (registry : Registry) : GroupKey → Int → Prop
  | .org, id => (∀ owner, (owner, id) ∉ registry.repositories) ∧
      ∀ other, (renderNumber id, other) ∉ registry.repositories
  | .team, id => (∀ slug, (id, slug) ∉ registry.teams) ∧
      ∀ other, (other, renderNumber id) ∉ registry.teams
  | _, _ => False

variable {id : Int} {document : IndexedDocument}

variable {α β : Type} {rows : List (α × β)} {a : α} {b : β} {owner : Text} {filter : QueryFilter}
  {other : GroupedDocument}

section Names

variable {registry : Registry}

theorem mem_of_lookup [BEq α] [LawfulBEq α] (found : rows.lookup a = some b) : (a, b) ∈ rows := by
  induction rows with
  | nil => cases found
  | cons row rest ih =>
    rw [List.lookup_cons] at found
    split at found
    next same =>
      obtain ⟨rfl, rfl⟩ : a = row.1 ∧ row.2 = b := ⟨by simpa using same, by simpa using found⟩
      exact List.mem_cons_self
    next => exact List.mem_cons_of_mem _ (ih found)

theorem exists_lookup [BEq α] [LawfulBEq α] (inside : (a, b) ∈ rows) :
    ∃ other, rows.lookup a = some other := by
  induction rows with
  | nil => cases inside
  | cons row rest ih =>
    rw [List.lookup_cons]
    split
    next => exact ⟨_, rfl⟩
    next different =>
      rcases List.mem_cons.mp inside with rfl | inside
      · simp at different
      · exact ih inside

theorem mem_of_resolveOrgIds (found : registry.resolveOrgIds owner = some id) :
    (owner, id) ∈ registry.repositories :=
  List.mem_reverse.mp (mem_of_lookup found)

theorem mem_of_resolveOrgOwners (found : registry.resolveOrgOwners id = some owner) :
    (owner, id) ∈ registry.repositories := by
  have inside := List.mem_reverse.mp (mem_of_lookup found)
  obtain ⟨row, among, swapped⟩ := List.mem_map.mp inside
  cases swapped
  exact among

theorem exists_resolveOrgOwners (inside : (owner, id) ∈ registry.repositories) :
    ∃ other, registry.resolveOrgOwners id = some other :=
  exists_lookup (List.mem_reverse.mpr (List.mem_map_of_mem (f := Prod.swap) inside))

theorem mem_resolveTeamIds {slug : Text} :
    (∃ ids ∈ registry.resolveTeamIds slug, id ∈ ids) ↔ (id, slug) ∈ registry.teams := by
  have among : id ∈ (registry.teams.filter fun team => team.2 = slug).map (·.1) ↔
      (id, slug) ∈ registry.teams := by
    simp
  rw [← among, Registry.resolveTeamIds]
  split
  next none_ => simp [none_]
  next => simp

theorem rowKey_text {key : GroupKey} {name : Text} : registry.rowKey key (text name) = name := by
  rw [text, Registry.rowKey, String.toList_ofList]

/-- The owner that a row shows belongs to its organisation and to no other one. -/
theorem resolveOrgIds_rowKey (named : registry.Names .org (.number id)) :
    registry.resolveOrgIds (registry.rowKey .org (.number id)) = some id := by
  obtain ⟨⟨owner, inside⟩, alone⟩ := named
  obtain ⟨shown, found⟩ := exists_resolveOrgOwners inside
  have listed := mem_of_resolveOrgOwners found
  have key : registry.rowKey .org (.number id) = shown := by
    simp [Registry.rowKey, Registry.displayFor, found]
  rw [key]
  obtain ⟨other, resolved⟩ : ∃ other, registry.resolveOrgIds shown = some other :=
    exists_lookup (List.mem_reverse.mpr listed)
  rw [resolved, alone shown other listed (mem_of_resolveOrgIds resolved)]

/-- The slug that a row shows is that of its team and of no other one. -/
theorem teamIds_rowKey (named : registry.Names .team (.number id)) (other : Int) :
    (∃ ids ∈ registry.resolveTeamIds (registry.rowKey .team (.number id)), other ∈ ids) ↔
      other = id := by
  obtain ⟨⟨slug, inside⟩, alone⟩ := named
  obtain ⟨shown, found⟩ : ∃ shown, registry.resolveTeamSlugs id = some shown :=
    exists_lookup (List.mem_reverse.mpr inside)
  have listed : (id, shown) ∈ registry.teams := List.mem_reverse.mp (mem_of_lookup found)
  have key : registry.rowKey .team (.number id) = shown := by
    simp [Registry.rowKey, Registry.displayFor, found]
  rw [key, mem_resolveTeamIds]
  constructor
  · exact alone shown other listed
  · rintro rfl
    exact listed

/-- The condition of a row asks for the value that the row counts. -/
theorem has_rowKey {key : GroupKey} {raw : Json} (bucket : IsBucketKey key raw)
    (named : registry.Names key raw) :
    Has registry.resolution document (groupQueryKey key) (registry.rowKey key raw) ↔
      raw ∈ document.fields (groupField key) := by
  cases key with
  | org =>
    obtain ⟨id, rfl⟩ := bucket
    have resolved : registry.resolution.orgIds (registry.rowKey .org (.number id)) = some id :=
      resolveOrgIds_rowKey named
    simp only [groupQueryKey, Has, resolved, Option.mem_some_iff, exists_eq_left', groupField]
  | team =>
    obtain ⟨id, rfl⟩ := bucket
    constructor
    · rintro ⟨ids, found, other, among, inside⟩
      obtain rfl := (teamIds_rowKey named other).mp ⟨ids, found, among⟩
      exact inside
    · intro inside
      obtain ⟨ids, found, among⟩ := (teamIds_rowKey named id).mpr rfl
      exact ⟨ids, found, id, among, inside⟩
  | repository | author | label | baseBranch | state =>
    obtain ⟨name, rfl⟩ := bucket
    rw [rowKey_text]
    rfl

/-- No document has a name that the registry does not know. -/
theorem not_has_unknown {key : GroupKey} (unknown : registry.Unknown key id) :
    ¬ Has registry.resolution document (groupQueryKey key) (registry.rowKey key (.number id)) := by
  cases key with
  | org =>
    obtain ⟨nameless, free⟩ := unknown
    have shown : registry.rowKey .org (.number id) = renderNumber id := by
      cases found : registry.resolveOrgOwners id with
      | none => simp [Registry.rowKey, Registry.displayFor, found]
      | some owner => exact absurd (mem_of_resolveOrgOwners found) (nameless owner)
    rintro ⟨other, found, -⟩
    rw [shown] at found
    exact free other (mem_of_resolveOrgIds found)
  | team =>
    obtain ⟨nameless, free⟩ := unknown
    have shown : registry.rowKey .team (.number id) = renderNumber id := by
      cases found : registry.resolveTeamSlugs id with
      | none => simp [Registry.rowKey, Registry.displayFor, found]
      | some slug => exact absurd (List.mem_reverse.mp (mem_of_lookup found)) (nameless slug)
    rintro ⟨ids, found, other, among, -⟩
    rw [shown] at found
    exact free other (mem_resolveTeamIds.mp ⟨ids, found, among⟩)
  | repository | author | label | baseBranch | state => cases unknown

end Names

/-! ### The tree of a row -/

/-- The conditions that the drill-down query keeps. -/
def groupKept (base : QueryAst) (key : GroupKey) : QueryAst :=
  without (isEquality (groupQueryKey key)) (without (isEquality .kind) base)

section Trees

variable {engine : Engine} {zones : Zones} {registry : Registry} {options : BuildQueryOptions}
  {runtime : Runtime} {base : QueryAst} {key : GroupKey} {raw : Json}

theorem kind_ne_groupQueryKey : EqualityKey.kind ≠ groupQueryKey key := by
  cases key <;> decide

theorem isEquality_apart (is : isEquality (groupQueryKey key) filter = true) :
    isEquality .kind filter = false := by
  cases filter with
  | equality other negated values =>
    cases negated with
    | false =>
      obtain rfl : other = groupQueryKey key := by simpa [isEquality] using is
      simpa [isEquality] using kind_ne_groupQueryKey.symm
    | true => rfl
  | numeric | temporal => rfl

/-- The base query means the kept conditions, and those that are left out. -/
theorem saysAll_groupKept (key : GroupKey) :
    SaysAll engine zones registry.resolution options document base ↔
      SaysAll engine zones registry.resolution options document (groupKept base key) ∧
        (∀ filter ∈ base.filters, isEquality (groupQueryKey key) filter = true →
          Says engine zones registry.resolution document filter) ∧
        ∀ filter ∈ base.filters, isEquality .kind filter = true →
          Says engine zones registry.resolution document filter :=
  saysAll_without_both (fun _ => isOrdinal_of_isEquality) (fun _ => isOrdinal_of_isEquality)
    fun _ => isEquality_apart

/-- The drill-down query means the kept conditions, a pull request, and the value of the row. -/
theorem saysAll_groupTree :
    SaysAll engine zones registry.resolution options document (groupTree registry base key raw) ↔
      SaysAll engine zones registry.resolution options document (groupKept base key) ∧
        document.index = .pullRequests ∧
          Has registry.resolution document (groupQueryKey key) (registry.rowKey key raw) := by
  have kept : isEquality (groupQueryKey key) (.equality .kind false [kindPullRequest]) = false := by
    simpa [isEquality] using kind_ne_groupQueryKey
  have known : kindAlias kindPullRequest = some .pullRequests := rfl
  rw [groupTree, saysAll_replaceEquality, replaceEquality, without_adding kept, saysAll_adding rfl,
    Says.positive rfl, ← groupKept, and_assoc]
  refine and_congr_right fun _ => and_congr_left fun _ => ?_
  simp only [Holds, List.mem_singleton, exists_eq_left, Has, known, Option.some.injEq, eq_comm]

theorem builds_groupTree (builds : Builds zones registry.resolution options base) :
    Builds zones registry.resolution options (groupTree registry base key raw) :=
  builds_replaceEquality (builds_replaceEquality builds)

/-- With a key that is not empty the tree of a row can be read back. -/
theorem lawful_groupTree (lawful : Lawful runtime base.filters)
    (some_ : registry.rowKey key raw ≠ []) :
    Lawful runtime (groupTree registry base key raw).filters := by
  have replaced : Lawful runtime (replaceEquality base .kind kindPullRequest).filters :=
    lawful_replaceEquality lawful (by decide) rfl
  exact lawful_replaceEquality replaced some_ (by cases key <;> rfl)

end Trees

/-! ### The bucket -/

section Agreement

variable {engine : Engine} {zones : Zones} {registry : Registry} {options : BuildQueryOptions}
  {runtime : Runtime} {base : QueryAst} {key : GroupKey} {raw : Json}

/-- A value in a field that has one value at most is the only one in it. -/
theorem has_single {document : GroupedDocument} (one : key ∉ multiValueGroups)
    (inside : raw ∈ document.fields (groupField key))
    (inside' : raw ∈ other.fields (groupField key)) {value : Text}
    (has : Has registry.resolution document.toIndexedDocument (groupQueryKey key) value) :
    Has registry.resolution other.toIndexedDocument (groupQueryKey key) value := by
  have moves : ∀ item ∈ document.fields (groupField key), item ∈ other.fields (groupField key) := by
    intro item among
    rwa [document.single key one item among raw inside]
  cases key with
  | org =>
    obtain ⟨id, resolved, among⟩ := has
    exact ⟨id, resolved, moves _ among⟩
  | team | label => exact absurd (by decide) one
  | repository | author | baseBranch | state => exact moves _ has

variable (registry base key raw) in
/-- Every condition on a key of several values asks for the value of the row too. -/
def Asked : Prop :=
  key ∈ multiValueGroups → ∀ values,
    QueryFilter.equality (groupQueryKey key) false values ∈ base.filters →
      registry.rowKey key raw ∈ values

/-- What the base query asks of the key, it asks of all documents of the bucket alike. -/
theorem says_groupQueryKey (bucket : IsBucketKey key raw) (named : registry.Names key raw)
    (asked : Asked registry base key raw) {document : GroupedDocument}
    (inside : raw ∈ document.fields (groupField key))
    (inside' : raw ∈ other.fields (groupField key)) (among : filter ∈ base.filters)
    (is : isEquality (groupQueryKey key) filter = true)
    (said : Says engine zones registry.resolution document.toIndexedDocument filter) :
    Says engine zones registry.resolution other.toIndexedDocument filter := by
  cases filter with
  | equality on negated values =>
    cases negated with
    | false =>
      obtain rfl : on = groupQueryKey key := by simpa [isEquality] using is
      rw [Says.positive rfl] at said ⊢
      obtain ⟨value, listed, has⟩ := said
      by_cases several : key ∈ multiValueGroups
      · exact ⟨_, asked several _ among, (has_rowKey bucket named).mpr inside'⟩
      · exact ⟨value, listed, has_single several inside inside' has⟩
    | true => cases is
  | numeric | temporal => cases is

theorem inGroup_iff (gathered : Gathered base.filters) (some_ : base.text ≠ some [])
    {document : GroupedDocument} :
    InGroup engine zones registry.resolution options base key raw document ↔
      document.index = .pullRequests ∧ Builds zones registry.resolution options base ∧
        SaysAll engine zones registry.resolution options document.toIndexedDocument base ∧
          raw ∈ document.fields (groupField key) := by
  rw [InGroup, matches_iff gathered some_]
  simp only [analyticsTarget, List.mem_singleton, and_assoc]

theorem groupAgrees_of_names (lawful : Lawful runtime base.filters)
    (long : ∀ text ∈ base.text, minTextLength ≤ countCodePoints text) (some_ : base.text ≠ some [])
    (returns : TextReturns base.text) (bucket : IsBucketKey key raw)
    (named : registry.Names key raw) (shown : registry.rowKey key raw ≠ [])
    (asked : Asked registry base key raw) : GroupAgrees runtime registry base key raw := by
  rintro engine zones options documents ⟨counted, -, inside⟩
  obtain ⟨index, builds, said, held⟩ := (inGroup_iff lawful.gathered some_).mp inside
  obtain ⟨-, keys, kinds⟩ := (saysAll_groupKept key).mp said
  have tree : Lawful runtime (groupTree registry base key raw).filters :=
    lawful_groupTree lawful shown
  refine ⟨groupTree registry base key raw, parseQuery_serializeQuery tree long returns, ?_⟩
  intro document _
  have found : Matches engine zones registry.resolution options searchTarget
      (groupTree registry base key raw) document.toIndexedDocument ↔ _ :=
    matches_iff tree.gathered some_
  have whole : SaysAll engine zones registry.resolution options document.toIndexedDocument base ↔ _ :=
    saysAll_groupKept key
  rw [found, saysAll_groupTree, has_rowKey bucket named, inGroup_iff lawful.gathered some_, whole]
  constructor
  · -- what the base query asks of the key and of the kind, the counted document vouches for
    rintro ⟨-, -, kept, isPull, held'⟩
    refine ⟨isPull, builds, ⟨kept, fun filter among is => ?_, fun filter among is => ?_⟩, held'⟩
    · exact says_groupQueryKey bucket named asked held held' among is (keys filter among is)
    · exact (says_kind is (index.trans isPull.symm)).mp (kinds filter among is)
  · rintro ⟨isPull, -, ⟨kept, -, -⟩, held'⟩
    refine ⟨?_, builds_groupTree builds, kept, isPull, held'⟩
    rw [isPull]
    decide

theorem findsNothing_of_unknown (lawful : Lawful runtime base.filters)
    (long : ∀ text ∈ base.text, minTextLength ≤ countCodePoints text) (some_ : base.text ≠ some [])
    (returns : TextReturns base.text) (unknown : registry.Unknown key id)
    (shown : registry.rowKey key (.number id) ≠ []) :
    FindsNothing runtime registry base key (.number id) := by
  have tree : Lawful runtime (groupTree registry base key (.number id)).filters :=
    lawful_groupTree lawful shown
  refine ⟨_, parseQuery_serializeQuery tree long returns, ?_⟩
  intro engine zones options document found
  obtain ⟨-, -, said⟩ := (matches_iff tree.gathered some_).mp found
  obtain ⟨-, -, has⟩ := saysAll_groupTree.mp said
  exact not_has_unknown unknown has

end Agreement

/-- The drill-down query of a row selects the documents that the row counts, where the registry gives
its identifier a name of its own. Where it gives none, the row keeps the number of the identifier and
its query finds nothing. -/
theorem drillDownQuery_selects {runtime : Runtime} (canonical : runtime.Canonical) {input : Text}
    {base : QueryAst} (accepted : parseQuery runtime input = .ok base)
    (returns : TextReturns base.text) (registry : Registry) (key : GroupKey) (raw : Json)
    (bucket : IsBucketKey key raw) (shown : registry.rowKey key raw ≠ []) :
    (registry.Names key raw → Asked registry base key raw →
      GroupAgrees runtime registry base key raw) ∧
    ∀ id, raw = .number id → registry.Unknown key id →
      FindsNothing runtime registry base key raw := by
  obtain ⟨lawful, long⟩ := lawful_of_parseQuery canonical accepted
  have some_ := (gathered_of_parseQuery accepted).2
  constructor
  · exact fun named asked =>
      groupAgrees_of_names lawful long some_ returns bucket named shown asked
  · rintro id rfl unknown
    exact findsNothing_of_unknown lawful long some_ returns unknown shown

/-- A pull request whose author is in one team. -/
def teamDocument (team : Int) : GroupedDocument where
  index := .pullRequests
  fields := fun field => if field = "author_team_ids" then [.number team] else []
  numbers := by
    intro key value inside
    cases key <;> cases inside
  times := by
    intro key value inside
    cases key <;> cases inside
  single := by
    intro key one
    cases key with
    | team => exact absurd (by decide) one
    | repository | org | author | label | baseBranch | state => rintro _ ⟨⟩

theorem drillDownQuery_selects_team :
    GroupAgrees seoulRuntime ⟨[], [(7, "core".toList)]⟩
      ⟨[.equality .label true ["bug".toList]], none⟩ .team (.number 7) := by
  have accepted : parseQuery seoulRuntime "-label:bug".toList =
      .ok ⟨[.equality .label true ["bug".toList]], none⟩ := rfl
  refine (drillDownQuery_selects seoulRuntime_canonical accepted (by rintro _ ⟨⟩)
    ⟨[], [(7, "core".toList)]⟩ .team (.number 7) ⟨7, rfl⟩ (by decide)).1 ?_ ?_
  · refine ⟨⟨"core".toList, List.mem_cons_self⟩, fun slug other _ among => ?_⟩
    have same := List.mem_singleton.mp among
    exact congrArg Prod.fst same
  · intro _ values inside
    cases List.mem_singleton.mp inside

/-- The registry does not know the team of the row: its query asks for a team named `7`. -/
theorem unknownTeam_not_found :
    ¬ ∀ (runtime : Runtime) (input : Text) (base : QueryAst) (registry : Registry) (key : GroupKey)
      (raw : Json), runtime.Canonical → parseQuery runtime input = .ok base →
      GroupAgrees runtime registry base key raw := by
  intro all
  have claimed := all seoulRuntime "-label:bug".toList
    ⟨[.equality .label true ["bug".toList]], none⟩ ⟨[], []⟩ .team (.number 7) seoulRuntime_canonical rfl
  have counted : InGroup silentEngine (fun _ => none) (Registry.resolution ⟨[], []⟩) {}
      ⟨[.equality .label true ["bug".toList]], none⟩ .team (.number 7) (teamDocument 7) :=
    ⟨⟨⟨[.pullRequests], rfl, by decide⟩,
      ⟨.bool [] [] [] [.terms "labels" [text "bug".toList]] 0, []⟩, rfl, by decide⟩,
      List.mem_singleton.mpr rfl⟩
  obtain ⟨drilled, read, same⟩ := claimed silentEngine (fun _ => none) {} [teamDocument 7]
    ⟨_, List.mem_cons_self, counted⟩
  have written : parseQuery seoulRuntime (drillDownQuery ⟨[], []⟩
      ⟨[.equality .label true ["bug".toList]], none⟩ .team (.number 7)) =
        .ok ⟨[.equality .label true ["bug".toList], .equality .kind false [kindPullRequest],
          .equality .authorTeam false ["7".toList]], none⟩ := rfl
  rw [written] at read
  cases read
  obtain ⟨-, built, made, admits⟩ := (same _ List.mem_cons_self).mpr counted
  have made' : buildQuery (fun _ => none) (resolveSearchTarget
      ⟨[.equality .label true ["bug".toList], .equality .kind false [kindPullRequest],
        .equality .authorTeam false ["7".toList]], none⟩ searchTarget).ast
      (Registry.resolution ⟨[], []⟩) {} =
        .ok ⟨.bool [] [.matchNone] [] [.terms "labels" [text "bug".toList]] 0,
          [.authorTeam "7".toList]⟩ := rfl
  rw [made'] at made
  cases made
  exact absurd admits (by decide)

end PrSearch.Search
