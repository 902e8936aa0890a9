import PrSearch.Documents.Winner
import PrSearch.Lib.Rows

/-! # Comparing the snapshots with the index

The watch compares the canonical snapshots of a repository with its documents in the index: the
counts of all, and a sample of the greatest numbers of either side. The samples are cut
independently, so that a number below the cut of the other side is missing there although it exists.
The contents of what is sampled on both sides are compared by fingerprints, in which lists count
without their order, each element as its text.
-/
namespace PrSearch.Documents

open Lib Index

/-! ### The two sides -/

/-- A row of `pull_request_snapshot` with its key. -/
structure StoredSnapshot extends PullRequestSnapshotRow, PullRequest

def StoredSnapshot.key (row : StoredSnapshot) : Int × Int := (row.repositoryId, row.prNumber)

/-- A document of `prs-pull-requests`; its identifier consists of the two numbers. -/
structure StoredDocument extends PullRequest where
  source : Fields
  registered : source.lookup "repository_id" = some (.number repositoryId)
  numbered : source.lookup "pr_number" = some (.number prNumber)

def StoredDocument.key (document : StoredDocument) : Int × Int :=
  (document.repositoryId, document.prNumber)

abbrev Snapshots := Rows.Table StoredSnapshot.key

abbrev IndexDocuments := Rows.Table StoredDocument.key

def consistencySampleSize : Nat := 1000

def maxSampleIdentifiers : Nat := 20

/-- `ORDER BY pr_number DESC LIMIT …` -/
def listSnapshots (snapshots : Snapshots) (repositoryId : Int) (limit : Nat) : List StoredSnapshot :=
  Rows.top (fun row => row.prNumber) snapshots.rows (fun row => row.repositoryId = repositoryId) limit

def countSnapshots (snapshots : Snapshots) (repositoryId : Int) : Nat :=
  (snapshots.rows.filter fun row => row.repositoryId = repositoryId).length

/-- The hits of the search, and how many documents it matches. -/
def search (index : IndexDocuments) (repositoryId : Int) (size : Nat) : List StoredDocument × Nat :=
  (Rows.top (fun document => document.prNumber) index.rows
      (fun document => document.repositoryId = repositoryId) size,
    (index.rows.filter fun document => document.repositoryId = repositoryId).length)

/-! ### Fingerprints -/

def canonicalFields : List String :=
  ["repository_id", "pr_number", "title", "state", "draft", "author", "base_branch", "head_branch",
    "merge_commit_sha", "created_at", "updated_at", "merged_at", "closed_at", "labels",
    "document_version"]

def scopeFields : List String := ["org_id", "visibility", "allowed_team_ids", "repository_archived"]

def fingerprintFields : List String := canonicalFields ++ scopeFields

/-- What the registry says of the scope now. -/
def repositoryScopeState (repository : RepositoryRow) : Fields :=
  object [("org_id", some (.number repository.orgId)),
    ("visibility", some (.string repository.visibility.name)),
    ("allowed_team_ids", some (.array (repository.allowedTeamIds.map Json.number))),
    ("repository_archived", some (.bool (repository.status = .archived)))]

mutual

/-- `String(value)` -/
def text : Json → String
  | .null => "null"
  | .bool value => if value then "true" else "false"
  | .number value => toString value
  | .string value => value
  | .array items => ",".intercalate (texts items)
  | .object _ => "[object Object]"

/-- The elements of a list in a text; `null` is empty there. -/
def texts : List Json → List String
  | [] => []
  | .null :: rest => "" :: texts rest
  | value :: rest => text value :: texts rest

end

/-- Sorted by code points, where only equality of the sorted lists counts. -/
def canonicalValue : Option Json → Json
  | none => .null
  | some (.array items) => strings ((items.map text).insertionSort (· ≤ ·))
  | some value => value

/-- What is hashed; two hashes are equal when these are. -/
def fingerprint (document : Fields) : List (String × Json) :=
  fingerprintFields.map fun field => (field, canonicalValue (document.lookup field))

/-- The snapshot as the index should show it: the scope is that of the registry. -/
def expected (repository : RepositoryRow) (row : StoredSnapshot) : Fields :=
  assign (repositoryScopeState repository) row.document

abbrev Fingerprint := List (String × Json)

/-- The numbers of a sample, and the fingerprint of each. -/
structure Side where
  numbers : List Int
  fingerprints : Int → Option Fingerprint

def postgresPullRequests (snapshots : Snapshots) (repository : RepositoryRow) : Side :=
  let rows := listSnapshots snapshots repository.repositoryId consistencySampleSize
  ⟨rows.map fun row => row.prNumber,
    rows.foldl (fun fingerprints row =>
      Function.update fingerprints row.prNumber (some (fingerprint (expected repository row))))
      fun _ => none⟩

/-- A hit without a number is passed over. -/
def readHit (side : Side) (hit : StoredDocument) : Side :=
  match hit.source.lookup "pr_number" with
  | some (.number prNumber) =>
      ⟨if prNumber ∈ side.numbers then side.numbers else side.numbers ++ [prNumber],
        Function.update side.fingerprints prNumber (some (fingerprint hit.source))⟩
  | _ => side

def elasticsearchPullRequests (index : IndexDocuments) (repositoryId : Int) : Side × Nat :=
  let (hits, total) := search index repositoryId consistencySampleSize
  (hits.foldl readHit ⟨[], fun _ => none⟩, total)

/-! ### The reports -/

inductive MismatchKind
  | count
  | content
  | missingInEs
  | extraInEs
  | snapshotBootstrapPending
  deriving DecidableEq, Repr

structure ConsistencyReport where
  repository : String
  kind : MismatchKind
  postgresCount : Nat
  elasticsearchCount : Nat
  sampleIdentifiers : List String
  deriving DecidableEq, Repr

/-- The reports, and the numbers handed to `requestReprojection`. -/
structure Outcome where
  reports : List ConsistencyReport
  reprojected : List Int
  deriving DecidableEq, Repr

/-- A report on some numbers, where there are any. -/
def reportOn (slug : String) (kind : MismatchKind) (postgresCount elasticsearchCount : Nat)
    (numbers : List Int) : List ConsistencyReport :=
  if numbers = [] then []
  else [⟨slug, kind, postgresCount, elasticsearchCount,
    (numbers.take maxSampleIdentifiers).map toString⟩]

def missingInEs (pgSide esSide : Side) : List Int :=
  pgSide.numbers.filter fun number => number ∉ esSide.numbers

def drifted (pgSide esSide : Side) : List Int :=
  pgSide.numbers.filter fun number =>
    match pgSide.fingerprints number, esSide.fingerprints number with
    | some expected, some actual => expected ≠ actual
    | _, _ => false

def extraInEs (pgSide esSide : Side) : List Int :=
  esSide.numbers.filter fun number => number ∉ pgSide.numbers

def checkRepositoryConsistency (snapshots : Snapshots) (index : IndexDocuments)
    (requestReprojection : Bool) (repository : RepositoryRow) : Outcome :=
  let slug := repository.owner ++ "/" ++ repository.name
  let pgTotal := countSnapshots snapshots repository.repositoryId
  let pgSide := postgresPullRequests snapshots repository
  let (esSide, esTotal) := elasticsearchPullRequests index repository.repositoryId
  if !repository.bootstrapped then
    ⟨[⟨slug, .snapshotBootstrapPending, pgTotal, esTotal, []⟩], []⟩
  else
    let count := if pgTotal ≠ esTotal then [⟨slug, .count, pgTotal, esTotal, []⟩] else []
    let report := fun kind => reportOn slug kind pgSide.numbers.length esSide.numbers.length
    let missing := missingInEs pgSide esSide
    ⟨count ++ report .missingInEs missing ++ report .content (drifted pgSide esSide) ++
        report .extraInEs (extraInEs pgSide esSide),
      if requestReprojection then missing else []⟩

end PrSearch.Documents
