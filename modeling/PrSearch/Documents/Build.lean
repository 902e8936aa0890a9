import Mathlib.Algebra.Ring.Int.Defs
import PrSearch.Authz.ScopeForms
import PrSearch.Index.Convergence
import PrSearch.Query.Calendar

/-! # The document of a pull request

What the enrichment found out about a pull request is written into one request for the index, and
the fields of that request are also the canonical snapshot. Every value is named here; a value that
is not known is left out. Four sizes and the teams of the author tell by their absence that they are
not known, and a request without them removes them.
-/
namespace PrSearch.Documents

open Lib Index

inductive RepositoryStatus
  | active
  | archived
  deriving DecidableEq, Repr

/-- A row of `repository`; `bootstrapped` is whether `snapshot_bootstrapped_at` is set. -/
structure RepositoryRow extends Authz.Repository where
  status : RepositoryStatus
  bootstrapped : Bool
  deriving DecidableEq, Repr

structure EnrichedPullRequest where
  title : String
  body : Option String
  state : String
  draft : Bool
  labels : List String
  merged : Bool
  createdAt : Option String
  updatedAt : Option String
  closedAt : Option String
  mergedAt : Option String
  mergeCommitSha : Option String
  author : Option String
  headRef : String
  headSha : String
  baseRef : String
  baseSha : String
  deriving DecidableEq, Repr

structure EnrichedChangedFile where
  filename : String
  additions : Int
  deletions : Int
  deriving DecidableEq, Repr

structure EnrichedReview where
  state : String
  reviewer : Option String
  submittedAt : Option String
  deriving DecidableEq, Repr

inductive EnrichmentComponent
  | pullRequest
  | commits
  | files
  | reviews
  deriving DecidableEq, Repr

structure IngestionEnriched where
  deliveryId : String
  prNumber : Int
  /-- `null` when neither the enrichment nor the webhook gave the pull request. -/
  pullRequest : Option EnrichedPullRequest
  sourceCommitShas : List String
  changedFiles : List EnrichedChangedFile
  reviews : List EnrichedReview
  sourceCommitsTruncated : Bool
  filesTruncated : Bool
  enrichmentPending : Bool
  /-- The components that failed. -/
  enrichmentErrors : List EnrichmentComponent
  deriving DecidableEq, Repr

inductive AuthorTeamResolution
  | known (teamIds : List Int)
  | unknown
  deriving DecidableEq, Repr

structure ProjectionSource where
  enriched : IngestionEnriched
  repository : RepositoryRow
  /-- The milliseconds at which the webhook was received. -/
  documentVersion : Int
  indexedAt : Int
  authorTeams : AuthorTeamResolution
  deriving DecidableEq, Repr

/-! ### Values of the fields -/

def derivePullRequestState (pr : EnrichedPullRequest) : String :=
  if pr.merged then "merged"
  else
    match pr.mergedAt with
    | some mergedAt => if mergedAt ≠ "" then "merged" else pr.state
    | none => pr.state

/-- `String(repository_id) + ':' + String(pr_number)` -/
def pullRequestDocId (repositoryId prNumber : Int) : String :=
  toString repositoryId ++ ":" ++ toString prNumber

section Instants

-- `Date.parse`, with `none` for `NaN`
variable (dateParse : String → Option Int)

/-- `Math.round` of the milliseconds over 1000; a negative time is left out. -/
def seconds (start stop : Option String) : Option Int :=
  match start.bind dateParse, stop.bind dateParse with
  | some start, some stop =>
      let delta := (stop - start + 500) / 1000
      if delta < 0 then none else some delta
  | _, _ => none

/-- A comparison with `NaN` is false. -/
def before (submitted earliest : String) : Bool :=
  match dateParse submitted, dateParse earliest with
  | some submitted, some earliest => submitted < earliest
  | _, _ => false

/-- The reviews of the author do not count, where the author is known. -/
def firstReviewAt (reviews : List EnrichedReview) (author : Option String) : Option String :=
  reviews.foldl (fun earliest review =>
    match review.submittedAt with
    | none => earliest
    | some submitted =>
        if author.isSome ∧ review.reviewer = author then earliest
        else
          match earliest with
          | none => some submitted
          | some current => if before dateParse submitted current then some submitted else earliest)
    none

end Instants

def uniqueStrings (values : List (Option String)) : List String :=
  (values.filterMap fun value => value.filter (· ≠ "")).eraseDups

def strings (values : List String) : Json := .array (values.map Json.string)

/-- A string that may be `null`. -/
def nullable : Option String → Json
  | some value => .string value
  | none => .null

/-- `undefined` is not put into the document. -/
def put (fields : Fields) (key : String) (value : Option Json) : Fields :=
  match value with
  | none => fields
  | some value => fields.insert key value

/-- An object literal and the values put into it later. -/
def object (entries : List (String × Option Json)) : Fields :=
  entries.foldl (fun fields entry => put fields entry.1 entry.2) ∅

/-! ### The request -/

/-- An empty list of files is no fact when reading the files failed. -/
def filesUnknown (source : ProjectionSource) : Bool :=
  source.enriched.enrichmentErrors.any (· = .files)

def author (source : ProjectionSource) : Option String :=
  source.enriched.pullRequest.bind EnrichedPullRequest.author

/-- Without an author there are no teams. -/
def authorTeams (source : ProjectionSource) : AuthorTeamResolution :=
  if author source = none ∨ author source = some "" then .unknown else source.authorTeams

section Request

variable (dateParse : String → Option Int) (source : ProjectionSource)

def reviewedAt : Option String := firstReviewAt dateParse source.enriched.reviews (author source)

def leadTime : Option Int :=
  source.enriched.pullRequest.bind fun pr => seconds dateParse pr.createdAt pr.mergedAt

def firstReviewWait : Option Int :=
  source.enriched.pullRequest.bind fun pr =>
    seconds dateParse pr.createdAt (reviewedAt dateParse source)

/-- A size of the change, where the files are known. -/
def size (count : List EnrichedChangedFile → Int) : Option Json :=
  if filesUnknown source then none else some (.number (count source.enriched.changedFiles))

/-- A field of the pull request, where there is one. -/
def ofPullRequest (value : EnrichedPullRequest → Json) : Option Json :=
  source.enriched.pullRequest.map value

def authorTeamIds : Option Json :=
  match authorTeams source with
  | .known teamIds => some (.array ((teamIds.eraseDups.insertionSort (· ≤ ·)).map Json.number))
  | .unknown => none

/-- The values in the order in which the source writes them. -/
def entries : List (String × Option Json) :=
  let enriched := source.enriched
  let repository := source.repository
  [("document_version", some (.number source.documentVersion)),
    ("repository_id", some (.number repository.repositoryId)),
    ("repository", some (.string (repository.owner ++ "/" ++ repository.name))),
    ("org_id", some (.number repository.orgId)),
    ("visibility", some (.string repository.visibility.name)),
    ("allowed_team_ids", some (.array (repository.allowedTeamIds.map Json.number))),
    ("pr_number", some (.number enriched.prNumber)),
    ("source_commit_shas", some (strings (enriched.sourceCommitShas.map String.toLower))),
    ("source_commits_truncated", some (.bool enriched.sourceCommitsTruncated)),
    ("changed_files_count", size source fun files => files.length),
    ("additions", size source fun files => (files.map EnrichedChangedFile.additions).sum),
    ("deletions", size source fun files => (files.map EnrichedChangedFile.deletions).sum),
    ("changed_lines", size source fun files =>
      (files.map fun file => file.additions + file.deletions).sum),
    ("changed_paths", some (strings (enriched.changedFiles.map EnrichedChangedFile.filename))),
    ("files_truncated", some (.bool enriched.filesTruncated)),
    ("reviewers", some (strings (uniqueStrings (enriched.reviews.map EnrichedReview.reviewer)))),
    ("approved_by", some (strings (uniqueStrings
      ((enriched.reviews.filter fun review => review.state.toUpper = "APPROVED").map
        EnrichedReview.reviewer)))),
    ("enrichment_pending", some (.bool enriched.enrichmentPending)),
    ("repository_archived", some (.bool (repository.status = .archived))),
    ("last_delivery_id", some (.string enriched.deliveryId)),
    ("indexed_at", some (.string (String.ofList (Query.toISOString source.indexedAt)))),
    ("first_review_at", (reviewedAt dateParse source).map Json.string),
    ("author_team_ids", authorTeamIds source),
    ("title", ofPullRequest source fun pr => .string pr.title),
    ("body", ofPullRequest source fun pr => nullable pr.body),
    ("state", ofPullRequest source fun pr => .string (derivePullRequestState pr)),
    ("draft", ofPullRequest source fun pr => .bool pr.draft),
    ("labels", ofPullRequest source fun pr => strings pr.labels),
    ("author", ofPullRequest source fun pr => nullable pr.author),
    ("base_branch", ofPullRequest source fun pr => .string pr.baseRef),
    ("head_branch", ofPullRequest source fun pr => .string pr.headRef),
    ("base_sha", ofPullRequest source fun pr => .string pr.baseSha),
    ("head_sha", ofPullRequest source fun pr => .string pr.headSha),
    ("merge_commit_sha", ofPullRequest source fun pr => nullable pr.mergeCommitSha),
    ("created_at", ofPullRequest source fun pr => nullable pr.createdAt),
    ("updated_at", ofPullRequest source fun pr => nullable pr.updatedAt),
    ("merged_at", ofPullRequest source fun pr => nullable pr.mergedAt),
    ("closed_at", ofPullRequest source fun pr => nullable pr.closedAt),
    ("lead_time_seconds", (leadTime dateParse source).map Json.number),
    ("first_review_wait_seconds", (firstReviewWait dateParse source).map Json.number)]

/-- The names of the entries, whatever the source: the fields the document owns. -/
def ownedFields : List String :=
  ["document_version", "repository_id", "repository", "org_id", "visibility", "allowed_team_ids",
    "pr_number", "source_commit_shas", "source_commits_truncated", "changed_files_count",
    "additions", "deletions", "changed_lines", "changed_paths", "files_truncated", "reviewers",
    "approved_by", "enrichment_pending", "repository_archived", "last_delivery_id", "indexed_at",
    "first_review_at", "author_team_ids", "title", "body", "state", "draft", "labels", "author",
    "base_branch", "head_branch", "base_sha", "head_sha", "merge_commit_sha", "created_at",
    "updated_at", "merged_at", "closed_at", "lead_time_seconds", "first_review_wait_seconds"]

def sizeFields : List String := ["changed_files_count", "additions", "deletions", "changed_lines"]

/-- Fields that other workers own begin with these values. -/
def createOnly : Fields :=
  object [("links_pending", some (.bool true)),
    ("link_summary", some (.object [("has_revert", .bool false), ("is_reverted", .bool false),
      ("has_cherry_pick", .bool false), ("has_stack", .bool false), ("reference_count", .number 0)]))]

def removed : List String :=
  (if filesUnknown source then sizeFields else []) ++
    (if authorTeams source = .unknown then ["author_team_ids"] else [])

theorem entries_names : (entries dateParse source).map Prod.fst = ownedFields := rfl

theorem ownedFields_nodup : ownedFields.Nodup := by decide

end Request

/-- A value put under another name is not seen. -/
theorem lookup_put (fields : Fields) (name key : String) (value : Option Json) :
    (put fields name value).lookup key =
      if key = name then value.or (fields.lookup key) else fields.lookup key := by
  cases value with
  | none => simp [put]
  | some value =>
    by_cases same : key = name
    · subst same
      simp [put]
    · rw [put, AList.lookup_insert_ne same, if_neg same]

/-- With distinct names each field holds what its entry says. -/
theorem lookup_foldl_put {entries : List (String × Option Json)}
    (nodup : (entries.map Prod.fst).Nodup) (start : Fields) (key : String) :
    (entries.foldl (fun fields entry => put fields entry.1 entry.2) start).lookup key =
      ((entries.lookup key).join).or (start.lookup key) := by
  induction entries generalizing start with
  | nil => simp
  | cons entry rest ih =>
    obtain ⟨name, value⟩ := entry
    rw [List.map_cons, List.nodup_cons] at nodup
    rw [List.foldl_cons, ih nodup.2, lookup_put, List.lookup_cons]
    by_cases same : key = name
    · subst same
      -- no later entry has this name
      have gone : rest.lookup key = none := by
        rw [List.lookup_eq_none_iff]
        intro entry inside
        have here : entry.1 ∈ rest.map Prod.fst := List.mem_map_of_mem inside
        simpa using fun same : key = entry.1 => nodup.1 (same ▸ here)
      simp [gone]
    · have other : (key == name) = false := by simpa using same
      simp [same, other]

theorem lookup_object {entries : List (String × Option Json)}
    (nodup : (entries.map Prod.fst).Nodup) (key : String) :
    (object entries).lookup key = (entries.lookup key).join := by
  rw [object, lookup_foldl_put nodup, AList.lookup_empty, Option.or_none]

section Request

variable (dateParse : String → Option Int) (source : ProjectionSource)

theorem lookup_entries (key : String) :
    (object (entries dateParse source)).lookup key = ((entries dateParse source).lookup key).join :=
  lookup_object (entries_names dateParse source ▸ ownedFields_nodup) key

theorem notMem_union : "pull_request_numbers" ∉ (∅ : Fields) := AList.notMem_empty _

/-- The request that projects the pull request. -/
def buildPullRequestDocument : UpsertRequest where
  entityAlias := .pullRequests
  id := pullRequestDocId source.repository.repositoryId source.enriched.prNumber
  routing := toString source.repository.repositoryId
  doc := object (entries dateParse source)
  documentVersion := source.documentVersion
  versioned := by
    rw [lookup_entries]
    rfl
  union := ∅
  noRelation := notMem_union
  createOnly := createOnly
  remove := removed source

end Request

/-! ### Which fields a projection carries -/

def pullRequestFields : List String :=
  ["title", "body", "state", "draft", "labels", "author", "base_branch", "head_branch", "base_sha",
    "head_sha", "merge_commit_sha", "created_at", "updated_at", "merged_at", "closed_at"]

section Present

variable (dateParse : String → Option Int) (source : ProjectionSource)

/-- Whether an owned field has a value. -/
def present (key : String) : Bool :=
  if key ∈ sizeFields then !filesUnknown source
  else if key = "author_team_ids" then authorTeams source ≠ .unknown
  else if key = "first_review_at" then (reviewedAt dateParse source).isSome
  else if key = "lead_time_seconds" then (leadTime dateParse source).isSome
  else if key = "first_review_wait_seconds" then (firstReviewWait dateParse source).isSome
  else if key ∈ pullRequestFields then source.enriched.pullRequest.isSome
  else true

theorem size_isSome (count : List EnrichedChangedFile → Int) :
    (size source count).isSome = !filesUnknown source := by
  cases unknown : filesUnknown source <;> simp [size, unknown]

theorem ofPullRequest_isSome (value : EnrichedPullRequest → Json) :
    (ofPullRequest source value).isSome = source.enriched.pullRequest.isSome := by
  simp [ofPullRequest]

theorem authorTeamIds_isSome :
    (authorTeamIds source).isSome = decide (authorTeams source ≠ .unknown) := by
  cases teams : authorTeams source <;> simp [authorTeamIds, teams]

theorem entries_present :
    (entries dateParse source).map (fun entry => (entry.1, entry.2.isSome)) =
      ownedFields.map fun key => (key, present dateParse source key) := by
  simp [entries, ownedFields, present, sizeFields, pullRequestFields, size_isSome,
    ofPullRequest_isSome, authorTeamIds_isSome]

end Present

/-- Reading a table of names and values is reading what is said of each name. -/
theorem isSome_lookup {entries : List (String × Option Json)} {names : List String}
    {said : String → Bool}
    (table : entries.map (fun entry => (entry.1, entry.2.isSome)) =
      names.map fun key => (key, said key)) :
    ∀ key ∈ names, ((entries.lookup key).join).isSome = said key := by
  induction entries generalizing names with
  | nil =>
    intro key inside
    rw [List.map_nil, eq_comm, List.map_eq_nil_iff] at table
    exact absurd (table ▸ inside) List.not_mem_nil
  | cons entry rest ih =>
    obtain ⟨name, value⟩ := entry
    cases names with
    | nil => simp at table
    | cons first others =>
      simp only [List.map_cons, List.cons.injEq, Prod.mk.injEq] at table
      obtain ⟨⟨rfl, value_said⟩, table⟩ := table
      intro key inside
      rw [List.lookup_cons]
      by_cases same : key = name
      · subst same
        simpa using value_said
      · have other : (key == name) = false := by simpa using same
        rw [other]
        exact ih table key ((List.mem_cons.mp inside).resolve_left same)

section Present

variable (dateParse : String → Option Int)

theorem doc_isSome (source : ProjectionSource) {key : String} (mine : key ∈ ownedFields) :
    ((buildPullRequestDocument dateParse source).doc.lookup key).isSome =
      present dateParse source key := by
  rw [buildPullRequestDocument, lookup_entries]
  exact isSome_lookup (entries_present dateParse source) key mine

/-- What is removed has no value. -/
theorem present_of_removed {source : ProjectionSource} {key : String}
    (gone : key ∈ removed source) : present dateParse source key = false := by
  rw [removed, List.mem_append] at gone
  rcases gone with aSize | teams
  · cases unknown : filesUnknown source with
    | false => simp [unknown] at aSize
    | true =>
      rw [unknown, if_pos rfl] at aSize
      simp [present, aSize, unknown]
  · by_cases unknown : authorTeams source = .unknown
    · rw [if_pos unknown, List.mem_singleton] at teams
      subst teams
      simp [present, unknown, sizeFields]
    · simp [unknown] at teams

/-- The fields that are not removed when they have no value: a newer projection keeps them. -/
structure Keeps (older newer : ProjectionSource) : Prop where
  pullRequest : older.enriched.pullRequest.isSome → newer.enriched.pullRequest.isSome
  firstReview : (reviewedAt dateParse older).isSome → (reviewedAt dateParse newer).isSome
  leadTime : (leadTime dateParse older).isSome → (leadTime dateParse newer).isSome
  firstReviewWait :
    (firstReviewWait dateParse older).isSome → (firstReviewWait dateParse newer).isSome

/-- Every field with a value in the older one has a value in the newer one or is removed by it. -/
theorem keeps_iff (older newer : ProjectionSource) :
    Keeps dateParse older newer ↔ ∀ key ∈ ownedFields, present dateParse older key →
      present dateParse newer key ∨ key ∈ removed newer := by
  constructor
  · intro keeps key mine held
    simp only [present] at held ⊢
    by_cases aSize : key ∈ sizeFields
    · cases unknown : filesUnknown newer <;> simp [aSize, unknown, removed]
    by_cases teams : key = "author_team_ids"
    · subst teams
      by_cases unknown : authorTeams newer = .unknown
      · exact .inr (by simp [removed, unknown])
      · exact .inl (by simp [sizeFields, unknown])
    left
    rw [if_neg aSize, if_neg teams] at held ⊢
    by_cases review : key = "first_review_at"
    · simpa only [if_pos review] using keeps.firstReview (by simpa only [if_pos review] using held)
    rw [if_neg review] at held ⊢
    by_cases lead : key = "lead_time_seconds"
    · simpa only [if_pos lead] using keeps.leadTime (by simpa only [if_pos lead] using held)
    rw [if_neg lead] at held ⊢
    by_cases wait : key = "first_review_wait_seconds"
    · simpa only [if_pos wait] using keeps.firstReviewWait (by simpa only [if_pos wait] using held)
    rw [if_neg wait] at held ⊢
    by_cases ofPr : key ∈ pullRequestFields
    · simpa only [if_pos ofPr] using keeps.pullRequest (by simpa only [if_pos ofPr] using held)
    · rw [if_neg ofPr]
  · -- four fields that are never removed tell the four conditions
    intro all
    have never (key : String) (noSize : key ∉ sizeFields) (noTeams : key ≠ "author_team_ids") :
        key ∉ removed newer := by
      rw [removed, List.mem_append]
      rintro (gone | gone)
      · split at gone
        · exact noSize gone
        · exact absurd gone List.not_mem_nil
      · split at gone
        · exact noTeams (List.mem_singleton.mp gone)
        · exact absurd gone List.not_mem_nil
    exact {
      pullRequest := fun held => (all "title" (by decide) held).resolve_right
        (never _ (by decide) (by decide))
      firstReview := fun held => (all "first_review_at" (by decide) held).resolve_right
        (never _ (by decide) (by decide))
      leadTime := fun held => (all "lead_time_seconds" (by decide) held).resolve_right
        (never _ (by decide) (by decide))
      firstReviewWait := fun held => (all "first_review_wait_seconds" (by decide) held).resolve_right
        (never _ (by decide) (by decide)) }

end Present

end PrSearch.Documents
