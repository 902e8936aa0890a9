import PrSearch.Lib.Json

/-! # Elasticsearch queries

The clauses that queries are built of, and which documents they match. A document holds a list of
values in each field. What the analysis of a text makes of it, and how dates compare, is the
engine's; numbers compare as numbers.
-/
namespace PrSearch.Index

open Lib

/-- The values a document holds in each field. -/
abbrev Document := String → List Json

inductive MatchType
  | phrase
  | bestFields
  deriving DecidableEq, Repr

structure Bounds where
  gte : Option Json
  lte : Option Json
  lt : Option Json

inductive Query
  | matchAll
  | matchNone
  | term (field : String) (value : Json)
  | terms (field : String) (values : List Json)
  | exists (field : String)
  | range (field : String) (bounds : Bounds)
  | multiMatch (query : String) (fields : List String) (type : MatchType)
  | bool (must filter should mustNot : List Query) (minimumShouldMatch : Nat)

structure Engine where
  analyzed : String → List String → MatchType → Document → Bool
  /-- Whether a date lies within the bounds. -/
  dated : Bounds → Json → Bool

def Engine.within (engine : Engine) (bounds : Bounds) : Json → Bool
  | .number value =>
      bounds.gte.all (fun bound => bound.asNumber.any (· ≤ value)) &&
        bounds.lte.all (fun bound => bound.asNumber.any (value ≤ ·)) &&
          bounds.lt.all fun bound => bound.asNumber.any (value < ·)
  | value => engine.dated bounds value

namespace Query

variable (engine : Engine) (document : Document)

mutual

def admits : Query → Bool
  | matchAll => true
  | matchNone => false
  | term field value => value ∈ document field
  | terms field values => (document field).any fun value => value ∈ values
  | .exists field => (document field).any fun value => value ≠ .null
  | range field bounds => (document field).any (engine.within bounds)
  | multiMatch query fields type => engine.analyzed query fields type document
  | bool must filter should mustNot minimumShouldMatch =>
      admitsAll must && admitsAll filter && decide (minimumShouldMatch ≤ admitted should) &&
        admitted mustNot == 0

def admitsAll : List Query → Bool
  | [] => true
  | clause :: rest => admits clause && admitsAll rest

/-- How many of the clauses match. -/
def admitted : List Query → Nat
  | [] => 0
  | clause :: rest => (if admits clause then 1 else 0) + admitted rest

end

theorem admitsAll_iff (clauses : List Query) :
    admitsAll engine document clauses = true ↔
      ∀ clause ∈ clauses, clause.admits engine document = true := by
  induction clauses with
  | nil => simp [admitsAll]
  | cons clause rest ih => simp [admitsAll, ih]

theorem admitted_pos (clauses : List Query) :
    1 ≤ admitted engine document clauses ↔
      ∃ clause ∈ clauses, clause.admits engine document = true := by
  induction clauses with
  | nil => simp [admitted]
  | cons clause rest ih =>
    rw [admitted, List.exists_mem_cons_iff, ← ih]
    by_cases here : clause.admits engine document = true
    · simp [here]
    · simp [here]

theorem admitted_eq_zero (clauses : List Query) :
    admitted engine document clauses = 0 ↔
      ∀ clause ∈ clauses, ¬ clause.admits engine document = true := by
  have some_admits := admitted_pos engine document clauses
  constructor
  · intro none clause inside admits
    have counted := some_admits.mpr ⟨clause, inside, admits⟩
    omega
  · intro none
    by_contra counted
    obtain ⟨clause, inside, admits⟩ := some_admits.mp (by omega)
    exact none clause inside admits

/-- A `bool` query with filters and alternatives of which one must match. -/
theorem admits_filter_should (filter should : List Query) :
    (bool [] filter should [] 1).admits engine document = true ↔
      (∀ clause ∈ filter, clause.admits engine document = true) ∧
        ∃ clause ∈ should, clause.admits engine document = true := by
  rw [← admitsAll_iff, ← admitted_pos]
  simp [admits, admitsAll, admitted]

theorem admits_terms (field : String) (values : List Json) :
    (terms field values).admits engine document = true ↔
      ∃ value ∈ document field, value ∈ values := by
  simp [admits]

end Query
end PrSearch.Index
