import Mathlib.Data.List.Dedup
import PrSearch.Query.Ast

/-! # The space that numbers of a query count in

Sequence numbers and merge numbers count within one branch of one repository, and numbers of pull
requests within one repository. A query that has a range of such numbers names the space with its
positive `repo:` and `base:` conditions, exactly one value each. Negated ranges count as well.
-/
namespace PrSearch.Query

inductive SequenceBindingProblem
  | sequenceSpaceRequired
  | sequenceSpaceAmbiguous
  deriving DecidableEq, Repr

inductive SequenceBindingAnalysis
  | none
  | bound (repository baseBranch : Text)
  /-- Merge numbers only: the branch is still open. -/
  | repositoryOnly (repository : Text)
  | invalid (reason : SequenceBindingProblem)
  deriving DecidableEq, Repr

inductive RepositoryBindingProblem
  | repositoryRequired
  | repositoryAmbiguous
  deriving DecidableEq, Repr

inductive RepositoryBindingAnalysis
  | none
  | bound (repository : Text)
  | invalid (reason : RepositoryBindingProblem)
  deriving DecidableEq, Repr

/-- The values of the positive conditions of a key, each once. -/
def positiveValues (ast : QueryAst) (key : EqualityKey) : List Text :=
  (ast.filters.flatMap fun
    | .equality other false values => if other = key then values else []
    | _ => []).dedup

def hasRangeFilter (ast : QueryAst) (key : NumericRangeKey) : Bool :=
  ast.filters.any fun filter => filter.key = .numeric key

def hasSequenceRangeFilter (ast : QueryAst) : Bool := hasRangeFilter ast .seq

def hasMergeNumberRangeFilter (ast : QueryAst) : Bool := hasRangeFilter ast .mnum

def hasPrNumberRangeFilter (ast : QueryAst) : Bool := hasRangeFilter ast .prNumber

def analyzeSequenceBinding (ast : QueryAst) : SequenceBindingAnalysis :=
  if hasSequenceRangeFilter ast then
    match positiveValues ast .repo, positiveValues ast .base with
    | [], _ | _, [] => .invalid .sequenceSpaceRequired
    | [repository], [baseBranch] => .bound repository baseBranch
    | _, _ => .invalid .sequenceSpaceAmbiguous
  else .none

def analyzeMergeNumberBinding (ast : QueryAst) : SequenceBindingAnalysis :=
  if hasMergeNumberRangeFilter ast then
    match positiveValues ast .repo, positiveValues ast .base with
    | [], _ => .invalid .sequenceSpaceRequired
    | [repository], [] => .repositoryOnly repository
    | [repository], [baseBranch] => .bound repository baseBranch
    | _, _ => .invalid .sequenceSpaceAmbiguous
  else .none

def analyzePrNumberBinding (ast : QueryAst) : RepositoryBindingAnalysis :=
  if hasPrNumberRangeFilter ast then
    match positiveValues ast .repo with
    | [] => .invalid .repositoryRequired
    | [repository] => .bound repository
    | _ => .invalid .repositoryAmbiguous
  else .none

theorem mem_positiveValues {ast : QueryAst} {key : EqualityKey} {value : Text} :
    value ∈ positiveValues ast key ↔
      ∃ values, QueryFilter.equality key false values ∈ ast.filters ∧ value ∈ values := by
  simp only [positiveValues, List.mem_dedup, List.mem_flatMap]
  constructor
  · rintro ⟨filter, inside, among⟩
    split at among
    next other values =>
      split at among
      next same => exact ⟨values, same ▸ inside, among⟩
      next => cases among
    next => cases among
  · rintro ⟨values, inside, among⟩
    exact ⟨_, inside, by simpa using among⟩

/-- A bound query names one value of each. -/
theorem positiveValues_of_bound {ast : QueryAst} {repository baseBranch : Text}
    (bound : analyzeSequenceBinding ast = .bound repository baseBranch) :
    positiveValues ast .repo = [repository] ∧ positiveValues ast .base = [baseBranch] := by
  unfold analyzeSequenceBinding at bound
  split at bound
  · split at bound
    · cases bound
    · cases bound
    next repositories branches =>
      cases bound
      exact ⟨repositories, branches⟩
    · cases bound
  · cases bound

end PrSearch.Query
