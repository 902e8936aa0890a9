import PrSearch.Search.Builder

/-! # The order of a list

A list is sorted by one key, the default key by two, and in the end by the identity of a document. A
document without a value is sorted by a value of its own in its place, behind all real ones, so that it can
be given back in `search_after`.
-/
namespace PrSearch.Search.Listing

inductive SortKey
  | prNumber
  | mergeSeq
  | mergedAt
  | createdAt
  | updatedAt
  | changedFilesCount
  | additions
  | leadTimeSeconds
  | relevance
  deriving DecidableEq, Repr

inductive SortOrder
  | asc
  | desc
  deriving DecidableEq, Repr

def SortKey.name : SortKey → String
  | prNumber => "pr_number"
  | mergeSeq => "merge_seq"
  | mergedAt => "merged_at"
  | createdAt => "created_at"
  | updatedAt => "updated_at"
  | changedFilesCount => "changed_files_count"
  | additions => "additions"
  | leadTimeSeconds => "lead_time_seconds"
  | relevance => "relevance"

def SortOrder.name : SortOrder → String
  | asc => "asc"
  | desc => "desc"

def defaultSortKey : SortKey := .mergeSeq

inductive FieldType
  | long
  | date
  | integer
  deriving DecidableEq, Repr

/-- `SORT_FIELDS`; the relevance is no field. -/
def sortField : SortKey → Option (String × FieldType)
  | .prNumber => some ("pr_number", .integer)
  | .mergeSeq => some ("merge_seq", .long)
  | .mergedAt => some ("merged_at", .date)
  | .createdAt => some ("created_at", .date)
  | .updatedAt => some ("updated_at", .date)
  | .changedFilesCount => some ("changed_files_count", .integer)
  | .additions => some ("additions", .integer)
  | .leadTimeSeconds => some ("lead_time_seconds", .long)
  | .relevance => none

/-- `MISSING_SENTINEL` -/
def missingSentinel : FieldType → SortOrder → Int
  | .date, .desc => -62135596800000
  | .date, .asc => 253402300799000
  | .long, .desc => -1
  | .long, .asc => 9007199254740991
  | .integer, .desc => -1
  | .integer, .asc => 2147483647

/-- A level of a sort. The last one, `doc_id` in ascending order, is never without a value. -/
inductive SortCombination
  | field (field : String) (order : SortOrder) (missing : Int) (unmappedType : FieldType)
  | score (order : SortOrder)
  | tiebreak
  deriving DecidableEq, Repr

def fieldSort (field : String) (type : FieldType) (order : SortOrder) : SortCombination :=
  .field field order (missingSentinel type order) type

def buildSort (key : SortKey) (order : SortOrder) : List SortCombination :=
  match sortField key with
  | none => [.score order, .tiebreak]
  | some (field, type) =>
      let primary := fieldSort field type order
      if key ≠ defaultSortKey then [primary, .tiebreak]
      else [primary, fieldSort "merged_at" .date .desc, .tiebreak]

end PrSearch.Search.Listing
