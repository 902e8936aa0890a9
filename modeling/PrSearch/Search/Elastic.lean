import Mathlib.Data.Char
import Mathlib.Data.Int.Order.Basic
import Mathlib.Data.List.Lex
import Mathlib.Order.Lattice
import PrSearch.Search.Sort

/-! # Searching sorted documents

Elasticsearch sorts what a query matches by the values of each level in turn. `search_after` leaves out
what does not come after the values given, and a point in time keeps the documents of the indices it was
opened on.
-/
namespace PrSearch.Search.Listing

open Index Query

structure StoredDocument where
  docId : Text
  index : EntityAlias
  fields : Document

inductive SortValue (σ : Type)
  | number (n : Int)
  | score (score : σ)
  | keyword (text : Text)
  deriving DecidableEq

/-- A fixed index. What dates and scores are is the engine's; a field gives a document one value or none.
A point in time may be renewed under another name. -/
structure Elastic (σ : Type) where
  engine : Engine
  docValue : String → Document → Option Int
  score : Query → Document → σ
  documents : List StoredDocument
  openPointInTime : List EntityAlias → String
  renewed : String → Option String
  indices : String → List EntityAlias
  opened : ∀ target, indices (openPointInTime target) = target ∧ openPointInTime target ≠ ""
  kept : ∀ id, ∀ other ∈ renewed id, indices other = indices id ∧ other ≠ ""

section

variable {σ : Type}

def SortCombination.order : SortCombination → SortOrder
  | field _ order _ _ => order
  | score order => order
  | tiebreak => .asc

variable (elastic : Elastic σ) (query : Query)

/-- The value of a document at a level. -/
def sortValue (document : StoredDocument) : SortCombination → SortValue σ
  | .field field _ missing _ => .number ((elastic.docValue field document.fields).getD missing)
  | .score _ => .score (elastic.score query document.fields)
  | .tiebreak => .keyword document.docId

def sortValues (sort : List SortCombination) (document : StoredDocument) : List (SortValue σ) :=
  sort.map (sortValue elastic query document)

/-- What a query matches in some indices. -/
def found (target : List EntityAlias) : List StoredDocument :=
  elastic.documents.filter fun document =>
    document.index ∈ target && query.admits elastic.engine document.fields

variable [LinearOrder σ]

def ordered {α : Type} [LinearOrder α] (order : SortOrder) (a b : α) : Bool :=
  match order with
  | .asc => a < b
  | .desc => b < a

/-- The one value comes before the other. -/
def precedes (order : SortOrder) : SortValue σ → SortValue σ → Bool
  | .number a, .number b => ordered order a b
  | .score a, .score b => ordered order a b
  | .keyword a, .keyword b => ordered order a b
  | _, _ => false

/-- The second values come after the first. -/
def comesAfter : List SortCombination → List (SortValue σ) → List (SortValue σ) → Bool
  | level :: sort, a :: earlier, b :: later =>
      precedes level.order a b || (a = b && comesAfter sort earlier later)
  | _, _, _ => false

def sorted (sort : List SortCombination) (documents : List StoredDocument) : List StoredDocument :=
  documents.mergeSort fun first second =>
    !comesAfter sort (sortValues elastic query sort second) (sortValues elastic query sort first)

structure SearchResponse where
  total : Nat
  hits : List StoredDocument

/-- A search among the indices of a point in time. -/
def searchWithPit (pitId : String) (size : Nat) (sort : List SortCombination)
    (searchAfter : Option (List (SortValue σ))) : SearchResponse :=
  let all := sorted elastic query sort (found elastic query (elastic.indices pitId))
  let behind :=
    match searchAfter with
    | none => all
    | some values => all.filter fun document =>
        comesAfter sort values (sortValues elastic query sort document)
  ⟨all.length, behind.take size⟩

end
end PrSearch.Search.Listing
