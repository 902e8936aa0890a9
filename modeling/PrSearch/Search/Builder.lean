import PrSearch.Index.Query
import PrSearch.Query.Binding
import PrSearch.Query.Calendar

/-! # From a syntax tree to an Elasticsearch query

`resolveSearchTarget` takes the `kind:` conditions out of a tree and narrows the indices that are
searched. `buildQuery` makes one clause of each of the other conditions: positive ones filter, negated
ones exclude, and a free text is matched with a score. A range of sequence or merge numbers brings
terms of its own with it, for the space that the numbers count in.
-/
namespace PrSearch.Search

open Lib Index Query

inductive EntityAlias
  | pullRequests
  | commits
  | links
  | releases
  deriving DecidableEq, Repr

/-! ### Which indices -/

/-- `KIND_ALIAS` -/
def kindAlias (value : Text) : Option EntityAlias :=
  if value = "pull_request".toList then some .pullRequests
  else if value = "commit".toList then some .commits
  else none

def isKind : QueryFilter → Bool
  | .equality .kind _ _ => true
  | _ => false

/-- What a `kind:` condition leaves of the indices. -/
def narrow (allowed : List EntityAlias) : QueryFilter → List EntityAlias
  | .equality .kind negated values =>
      let named := values.filterMap kindAlias
      if negated then allowed.filter fun index => index ∉ named
      else allowed.filter fun index => index ∈ named
  | _ => allowed

structure SearchTarget where
  /-- Without a target nothing is searched. -/
  target : Option (List EntityAlias)
  ast : QueryAst

def resolveSearchTarget (ast : QueryAst) (base : List EntityAlias) : SearchTarget :=
  if ast.filters.any isKind then
    let allowed := ast.filters.foldl narrow base.dedup
    { target := if allowed = [] then none else some allowed
      ast := { ast with filters := ast.filters.filter fun filter => !isKind filter } }
  else { target := some base, ast := ast }

/-! ### Which fields -/

/-- `TERM_FIELDS` -/
def termField : EqualityKey → Option String
  | .repo => some "repository"
  | .author => some "author"
  | .reviewer => some "reviewers"
  | .label => some "labels"
  | .base => some "base_branch"
  | .head => some "head_branch"
  | .state => some "state"
  | .release => some "release_tags"
  | _ => none

/-- `RANGE_FIELDS`, the numbers -/
def numericField : NumericRangeKey → String
  | .seq => "merge_seq"
  | .changedFiles => "changed_files_count"
  | .changedLines => "changed_lines"
  | .prNumber => "pr_number"
  | .mnum => "merge_number"

/-- `RANGE_FIELDS`, the times -/
def temporalField : TemporalRangeKey → String
  | .merged => "merged_at"
  | .created => "created_at"

def pathField : String := "changed_paths"

def text (value : Text) : Json := .string (String.ofList value)

/-- `DERIVED_STATE` -/
def derivedState (value : Text) : Option Query :=
  if value = "merged".toList then some (.term "state" (.string "merged"))
  else if value = "open".toList then some (.term "state" (.string "open"))
  else if value = "closed".toList then some (.term "state" (.string "closed"))
  else if value = "reverted".toList then some (.term "link_summary.is_reverted" (.bool true))
  else none

/-! ### Names, options and errors -/

/-- What the registry knows: the organisation of a name, and the teams of a slug. -/
structure NameResolution where
  orgIds : Text → Option Int
  teamIds : Text → Option (List Int)

inductive UnresolvedName
  | org (value : Text)
  | team (value : Text)
  | authorTeam (value : Text)
  deriving DecidableEq, Repr

structure BuiltQuery where
  query : Query
  unresolved : List UnresolvedName

structure BuildQueryOptions where
  sequenceEpoch : Option Int := none
  mergeNumberEpoch : Option Int := none
  mergeNumberBaseBranch : Option Text := none

inductive BuildQueryError
  | sequenceEpochRequired
  | mergeNumberEpochRequired
  | mergeNumberBranchRequired
  | kindFilterNotApplied
  /-- The `RangeError` of a date that is none, or of an unknown time zone. -/
  | range
  deriving DecidableEq, Repr

/-! ### Free text -/

def firstParentCommitRoles : List Json := [.string "merge_commit", .string "direct_push"]

def fullTextFields : List String :=
  ["title^3", "title.partial^1.5", "body", "message", "message.partial^0.5", "base_branch.text",
    "base_branch.partial^0.5", "head_branch.text", "head_branch.partial^0.5"]

/-- `NON_FIRST_PARENT_COMMIT` -/
def nonFirstParentCommit : Query :=
  .bool [] [.exists "role"] [] [.terms "role" firstParentCommitRoles] 0

def trim (value : Text) : Text := ((value.dropWhile isSpace).reverse.dropWhile isSpace).reverse

def textMatch (value : Text) : MatchType :=
  if (trim value).any isSpace then .bestFields else .phrase

def buildTextClause (value : Text) : Query :=
  .multiMatch (String.ofList value) fullTextFields (textMatch value)

/-! ### One condition -/

def termsClause (field : String) (values : List Text) : Query := .terms field (values.map text)

def idsClause (field : String) (ids : List Int) : Query :=
  if ids = [] then .matchNone else .terms field (ids.map Json.number)

def pathClause (values : List Text) : Query :=
  .bool [] [] (values.map fun value => .term pathField (text value)) [] 1

def derivedStateClause (values : List Text) : Query :=
  match values.filterMap derivedState with
  | [clause] => clause
  | clauses => .bool [] [] clauses [] 1

/-- The clause of a range; the keys have ranges of their own. -/
def numericClause (key : NumericRangeKey) (lower upper : Int) : Query :=
  .range (numericField key) ⟨some (.number lower), some (.number upper), none⟩

/-- The instants of a range of times. Days of a zone end before the next one begins. -/
def temporalBounds (zones : Zones) (lower upper : Text) : Option Text → Option Bounds
  | some timezone =>
      (calendarRangeToUtc zones lower upper timezone).map fun (gte, lt) =>
        ⟨some (text gte), none, some (text lt)⟩
  | none => some ⟨some (text lower), some (text upper), none⟩

def temporalClause (zones : Zones) (key : TemporalRangeKey) (lower upper : Text)
    (timezone : Option Text) : Except BuildQueryError Query :=
  match temporalBounds zones lower upper timezone with
  | some bounds => .ok (.range (temporalField key) bounds)
  | none => .error .range

def unresolvedNames (known : Text → Bool) (name : Text → UnresolvedName) (values : List Text) :
    List UnresolvedName :=
  (values.filter fun value => !known value).map name

def equalityClause (resolution : NameResolution) (key : EqualityKey) (values : List Text) :
    Except BuildQueryError BuiltQuery :=
  match termField key with
  | some field => .ok ⟨termsClause field values, []⟩
  | none =>
      match key with
      | .path => .ok ⟨pathClause values, []⟩
      | .is => .ok ⟨derivedStateClause values, []⟩
      | .org =>
          .ok ⟨idsClause "org_id" (values.filterMap resolution.orgIds),
            unresolvedNames (fun value => (resolution.orgIds value).isSome) .org values⟩
      | .team =>
          .ok ⟨idsClause "allowed_team_ids"
              (values.flatMap fun value => (resolution.teamIds value).getD []),
            unresolvedNames (fun value => (resolution.teamIds value).isSome) .team values⟩
      | .authorTeam =>
          .ok ⟨idsClause "author_team_ids"
              (values.flatMap fun value => (resolution.teamIds value).getD []),
            unresolvedNames (fun value => (resolution.teamIds value).isSome) .authorTeam values⟩
      | .kind => .error .kindFilterNotApplied
      | _ => .ok ⟨.matchNone, []⟩

def toClause (zones : Zones) (resolution : NameResolution) :
    QueryFilter → Except BuildQueryError BuiltQuery
  | .equality key _ values => equalityClause resolution key values
  | .numeric key _ lower upper => .ok ⟨numericClause key lower upper, []⟩
  | .temporal key _ lower upper timezone =>
      (temporalClause zones key lower upper timezone).map fun clause => ⟨clause, []⟩

/-! ### All conditions -/

/-- The arrays that the clauses are pushed to. -/
structure Clauses where
  filter : List Query := []
  mustNot : List Query := []
  unresolved : List UnresolvedName := []

def Clauses.add (zones : Zones) (resolution : NameResolution) (clauses : Clauses)
    (filter : QueryFilter) : Except BuildQueryError Clauses :=
  (toClause zones resolution filter).map fun built =>
    if filter.isNegated then
      { clauses with mustNot := clauses.mustNot ++ [built.query]
                     unresolved := clauses.unresolved ++ built.unresolved }
    else
      { clauses with filter := clauses.filter ++ [built.query]
                     unresolved := clauses.unresolved ++ built.unresolved }

def addAll (zones : Zones) (resolution : NameResolution) :
    Clauses → List QueryFilter → Except BuildQueryError Clauses
  | clauses, [] => .ok clauses
  | clauses, filter :: rest =>
      (clauses.add zones resolution filter).bind fun next => addAll zones resolution next rest

/-- The terms of the epoch that sequence numbers count in. -/
def sequenceTerms (ast : QueryAst) (options : BuildQueryOptions) :
    Except BuildQueryError (List Query) :=
  if hasSequenceRangeFilter ast then
    match options.sequenceEpoch with
    | none => .error .sequenceEpochRequired
    | some epoch => .ok [.term "seq_epoch" (.number epoch)]
  else .ok []

/-- The terms of the epoch and the branch that merge numbers count in. -/
def mergeNumberTerms (ast : QueryAst) (options : BuildQueryOptions) :
    Except BuildQueryError (List Query) :=
  if hasMergeNumberRangeFilter ast then
    match options.mergeNumberEpoch with
    | none => .error .mergeNumberEpochRequired
    | some epoch =>
        match options.mergeNumberBaseBranch with
        | none => .error .mergeNumberBranchRequired
        | some branch =>
            .ok [.term "merge_number_epoch" (.number epoch), .term "base_branch" (text branch)]
  else .ok []

/-- `must` and the clause that a free text excludes -/
def textClauses (ast : QueryAst) : List Query × List Query :=
  match ast.text with
  | none => ([], [])
  | some [] => ([], [])
  | some value => ([buildTextClause value], [nonFirstParentCommit])

def assemble (must : List Query) (clauses : Clauses) : Query :=
  if clauses.filter = [] ∧ clauses.mustNot = [] ∧ must = [] then .matchAll
  else .bool must clauses.filter [] clauses.mustNot 0

def buildQuery (zones : Zones) (ast : QueryAst) (resolution : NameResolution)
    (options : BuildQueryOptions) : Except BuildQueryError BuiltQuery :=
  (sequenceTerms ast options).bind fun sequence =>
  (mergeNumberTerms ast options).bind fun mergeNumber =>
  (addAll zones resolution { filter := sequence ++ mergeNumber } ast.filters).map fun clauses =>
    let (must, mustNot) := textClauses ast
    ⟨assemble must { clauses with mustNot := clauses.mustNot ++ mustNot }, clauses.unresolved⟩

end PrSearch.Search
