import Mathlib.Data.List.AList
import PrSearch.Lib.Json

/-! # Conditional upserts

Every event is projected by an upsert of one document: a script that runs against the stored
`_source`, and a body that is stored as it is when there is no document yet. State fields are
assigned when the version of the request is greater than the stored one, accumulated fields are
merged whatever the version. The script and Elasticsearch's update are one definition each, so that
a delivery is one step; any number of processes deliver in any order.

The fields of an object value count in the order of their keys.
-/
namespace PrSearch.Index

open Lib

/-- The keys of a JSON object with their values. -/
abbrev Fields := AList fun _ : String => Json

inductive EntityAlias
  | pullRequests
  | commits
  | links
  | releases
  deriving DecidableEq, Repr

def EntityAlias.name : EntityAlias → String
  | .pullRequests => "prs-pull-requests"
  | .commits => "prs-commits"
  | .links => "prs-links"
  | .releases => "prs-releases"

structure UpsertRequest where
  entityAlias : EntityAlias
  id : String
  routing : String
  doc : Fields
  documentVersion : Int
  versioned : doc.lookup "document_version" = some (.number documentVersion)
  union : AList fun _ : String => List Json
  /-- Relations cannot be accumulated, `assertNoRelationUnion`. -/
  noRelation : "pull_request_numbers" ∉ union
  createOnly : Fields
  remove : List String

def withDocId (request : UpsertRequest) (doc : Fields) : Fields :=
  doc.insert "doc_id" (.string request.id)

/-- `for (e in entries.entrySet()) { source[e.getKey()] = e.getValue(); }` -/
def assign (entries source : Fields) : Fields :=
  entries.foldl (fun source key value => source.insert key value) source

def toArrays (union : AList fun _ : String => List Json) : Fields :=
  union.foldl (fun out key values => out.insert key (.array values)) ∅

/-- The script does not run when the document is created, so all of it is here. -/
def initialDocument (request : UpsertRequest) : Fields :=
  withDocId request (assign request.createOnly (assign (toArrays request.union) request.doc))

structure Params where
  doc : Fields
  union : AList fun _ : String => List Json
  remove : List String

structure ScriptBody where
  params : Params
  upsert : Fields

def scriptBody (request : UpsertRequest) : ScriptBody where
  params := ⟨withDocId request request.doc, request.union, request.remove⟩
  upsert := initialDocument request

/-! ### The script -/

/-- The order in which the values of a `HashSet` come out. -/
structure HashOrder where
  list : List Json → List Json
  perm : ∀ values, (list values).Perm values

/-- What a field holds, read as a set. -/
def elements : Option Json → List Json
  | none => []
  | some .null => []
  | some (.array values) => values
  | some value => [value]

/-- Comparing a stored version that is no number raises an exception. -/
def fresh (source : Fields) (params : Params) : Option Bool :=
  match source.lookup "document_version", params.doc.lookup "document_version" with
  | none, _ => some true
  | some .null, _ => some true
  | some (.number stored), some (.number version) => some (decide (stored < version))
  | _, _ => none

def removeFields (keys : List String) (source : Fields) : Fields :=
  keys.foldl (fun source key => if key ∈ source then source.erase key else source) source

/-- One accumulated field: the source and whether anything was added so far. -/
def mergeField (order : HashOrder) (state : Fields × Bool) (key : String) (values : List Json) :
    Fields × Bool :=
  let merged := elements (state.1.lookup key) ∪ []
  (state.1.insert key (.array (order.list (values ∪ merged))),
    state.2 || values.any fun value => value ∉ merged)

inductive ScriptResult
  | index (source : Fields)
  | noop
  | exception

/-- `CONDITIONAL_UPSERT_SCRIPT` -/
def conditionalUpsertScript (order : HashOrder) (params : Params) (source : Fields) :
    ScriptResult :=
  match fresh source params with
  | none => .exception
  | some fresh =>
      let source := if fresh then assign params.doc source else source
      let source := if fresh then removeFields params.remove source else source
      let (source, changed) := params.union.foldl (mergeField order) (source, fresh)
      if changed then .index source else .noop

/-! ### Elasticsearch -/

structure Address where
  index : String
  id : String
  routing : String
  deriving DecidableEq, Repr

abbrev Documents := Address → Option Fields

structure FailureShape where
  type : Option String
  reason : Option String
  deriving DecidableEq, Repr

inductive Response
  | result (result : String)
  | error (status : Nat) (error : Option FailureShape)
  deriving DecidableEq, Repr

/-- An update with a script and an `upsert` body. -/
def update (order : HashOrder) (documents : Documents) (address : Address) (body : ScriptBody) :
    Documents × Response :=
  match documents address with
  | none => (Function.update documents address (some body.upsert), .result "created")
  | some source =>
      match conditionalUpsertScript order body.params source with
      | .index source => (Function.update documents address (some source), .result "updated")
      | .noop => (documents, .result "noop")
      | .exception =>
          (documents, .error 400 (some ⟨some "illegal_argument_exception",
            some "failed to execute script"⟩))

/-! ### Sending -/

/-- Whether the failure may be gone when the request is sent again. -/
inductive FailureKind
  | retryable
  | rejected
  deriving DecidableEq, Repr

inductive BulkItemOutcome
  | ok (result : String)
  | failed (kind : FailureKind) (status : Nat) (reason : String)
  deriving DecidableEq, Repr

def nonRetryableErrorTypes : List String :=
  ["strict_dynamic_mapping_exception", "document_parsing_exception", "mapper_parsing_exception",
    "illegal_argument_exception", "script_exception", "invalid_index_name_exception"]

def retryableErrorTypes : List String :=
  ["es_rejected_execution_exception", "circuit_breaking_exception", "cluster_block_exception",
    "unavailable_shards_exception", "version_conflict_engine_exception",
    "node_not_connected_exception", "no_shard_available_action_exception",
    "process_cluster_event_timeout_exception"]

def classifyStatus (status : Nat) : FailureKind :=
  if status = 429 then .retryable else if status ≥ 500 then .retryable else .rejected

/-- A known type decides; the status decides the rest. -/
def classifyFailure (status : Nat) (error : Option FailureShape) : FailureKind :=
  match error.bind FailureShape.type with
  | some type =>
      if type ∈ nonRetryableErrorTypes then .rejected
      else if type ∈ retryableErrorTypes then .retryable
      else classifyStatus status
  | none => classifyStatus status

def failureReason (status : Nat) (error : Option FailureShape) : String :=
  let type := (error.bind FailureShape.type).getD "unknown"
  let reason := (error.bind FailureShape.reason).getD ""
  if reason = "" then s!"{status} {type}" else s!"{status} {type}: {reason}"

def failed (status : Nat) (error : Option FailureShape) : BulkItemOutcome :=
  .failed (classifyFailure status error) status (failureReason status error)

def Response.outcome : Response → BulkItemOutcome
  | .result value => .ok value
  | .error status shape => failed status shape

/-- What becomes of one operation: Elasticsearch carries it out, refuses it, or carries it out and
the response is lost. -/
inductive Attempt
  | served
  | refused (status : Nat) (error : Option FailureShape)
  | lost
  deriving DecidableEq, Repr

def Attempt.carriedOut : Attempt → Bool
  | .refused _ _ => false
  | _ => true

structure Delivery where
  request : UpsertRequest
  index : String
  attempt : Attempt

def Delivery.address (delivery : Delivery) : Address :=
  ⟨delivery.index, delivery.request.id, delivery.request.routing⟩

def sendOne (order : HashOrder) (documents : Documents) (delivery : Delivery) :
    Documents × BulkItemOutcome :=
  let (next, response) := update order documents delivery.address (scriptBody delivery.request)
  match delivery.attempt with
  | .served => (next, response.outcome)
  | .refused status error => (documents, failed status error)
  | .lost => (next, failed 0 none)

/-- The documents after some deliveries. -/
def run (order : HashOrder) (documents : Documents) (deliveries : List Delivery) : Documents :=
  deliveries.foldl (fun documents delivery => (sendOne order documents delivery).1) documents

/-- Some operations in order, with their outcomes; `lost` is the outcome without a response. -/
def sendAll (order : HashOrder) (lost : BulkItemOutcome) :
    Documents → List Delivery → List (Delivery × BulkItemOutcome)
  | _, [] => []
  | documents, delivery :: rest =>
      let (next, outcome) := sendOne order documents delivery
      (delivery, if delivery.attempt = .lost then lost else outcome) :: sendAll order lost next rest

abbrev WriteTargets := EntityAlias → Option String

structure ShadowWriteFailure where
  entityAlias : EntityAlias
  index : String
  operation : String
  reason : String
  deriving DecidableEq, Repr

/-- The failure of one write to a shadow index, if it is one. -/
def shadowFailure (operation : String) (delivery : Delivery) (outcome : BulkItemOutcome) :
    Option ShadowWriteFailure :=
  match outcome with
  | .ok _ => none
  | .failed _ _ reason =>
      some ⟨delivery.request.entityAlias, delivery.index, operation, reason⟩

structure BulkUpsertResult where
  documents : Documents
  outcomes : List BulkItemOutcome
  shadowFailures : List ShadowWriteFailure

/-- A request, and what becomes of its operations on the served index and on the shadow. -/
abbrev Attempted := UpsertRequest × Attempt × Attempt

def servedPlan (requests : List Attempted) : List Delivery :=
  requests.map fun (request, attempt, _) => ⟨request, request.entityAlias.name, attempt⟩

def shadowPlan (targets : WriteTargets) (requests : List Attempted) : List Delivery :=
  requests.filterMap fun (request, _, attempt) =>
    (targets request.entityAlias).map fun index => ⟨request, index, attempt⟩

/-- The served indices first, then the shadows, whose failures are only reported. -/
def writeBoth (order : HashOrder) (lost : BulkItemOutcome) (operation : String)
    (targets : WriteTargets) (documents : Documents) (requests : List Attempted) : BulkUpsertResult :=
  let served := run order documents (servedPlan requests)
  ⟨run order served (shadowPlan targets requests),
    (sendAll order lost documents (servedPlan requests)).map Prod.snd,
    (sendAll order lost served (shadowPlan targets requests)).filterMap fun (delivery, outcome) =>
      shadowFailure operation delivery outcome⟩

def bulkUpsert (order : HashOrder) : WriteTargets → Documents → List Attempted → BulkUpsertResult :=
  writeBoth order (.failed .retryable 0 "벌크 응답에 대응 항목이 없다") "bulk"

def upsertOne (order : HashOrder) (targets : WriteTargets) (documents : Documents)
    (request : Attempted) : BulkUpsertResult :=
  writeBoth order (failed 0 none) "update" targets documents [request]

end PrSearch.Index
