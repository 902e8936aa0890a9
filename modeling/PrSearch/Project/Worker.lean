import PrSearch.Index.Upsert
import PrSearch.Lib.Automaton

/-! # The projection worker

An event is projected in attempts. An attempt sends the documents in one bulk request, sends the items
that may succeed later once more, one at a time, and then either gives the event back or marks it as
processed and announces what has changed. Attempts of any events run side by side and may stop between any
two steps; every update of a document is one step.
-/
namespace PrSearch.Project

open Index

inductive ProjectedEntityKind
  | pullRequest
  | commit
  deriving DecidableEq, Repr

def entityKindOf (request : UpsertRequest) : ProjectedEntityKind :=
  if request.entityAlias = .commits then .commit else .pullRequest

/-- `EVT-ING-003` -/
structure IngestionProjected where
  repositoryId : Int
  entityKind : ProjectedEntityKind
  entityId : String
  documentVersion : Int
  correlationId : String
  deriving DecidableEq, Repr

/-- What is read of `EVT-ING-002`. -/
structure Enriched where
  deliveryId : String
  repositoryId : Int
  correlationId : String
  deriving DecidableEq, Repr

/-- The payload is `none` when it breaks its contract. -/
structure DeliveredEvent where
  payload : Option Enriched
  deliveryCount : Nat

/-- What an attempt reads before it writes; `repository` is whether it is active. -/
structure Readings where
  rawEvent : Bool
  repository : Option Bool
  requests : List UpsertRequest

/-- How an attempt ends. -/
inductive Ended
  | malformed
  | skipped (reason : String)
  | retry (reason : String)
  | deadLetter (reason : String)
  | thrown
  | projected
  deriving DecidableEq, Repr

/-- `MAX_RETRIES` -/
def maxRetries : Nat := 5

def DeliveredEvent.retriesUsed (event : DeliveredEvent) : Nat := event.deliveryCount - 1

/-- A failure that may be gone later uses up the retries first. -/
def retryOrDeadLetter (retriesUsed : Nat) (reason : String) : Ended :=
  if retriesUsed < maxRetries then .retry reason else .deadLetter reason

/-! ### An attempt -/

/-- A request with its outcome. -/
abbrev Item := UpsertRequest × BulkItemOutcome

inductive Phase
  | bulk (answered : List Item) (rest : List UpsertRequest)
  | retrying (attempt : Nat) (current : List Item) (pending : List Nat)
  | marking (outcomes : List Item)
  | resolving (outcomes : List Item)
  | publishing (rest : List Item)

/-- `handleEnrichedEvent` up to the bulk request. -/
def prepare (event : DeliveredEvent) (readings : Readings) : Ended ⊕ (Enriched × Phase) :=
  match event.payload with
  | none => .inl .malformed
  | some enriched =>
      if readings.rawEvent then
        match readings.repository with
        | none => .inl (.skipped "repository_unregistered")
        | some false => .inl (.skipped "repository_not_archived")
        | some true => .inr (enriched, .bulk [] readings.requests)
      else .inl (retryOrDeadLetter event.retriesUsed "raw_event_missing")

def hasKind (kind : FailureKind) (item : Item) : Bool :=
  match item.2 with
  | .ok _ => false
  | .failed other _ _ => other = kind

/-- `MAX_ITEM_RETRIES` -/
def maxItemRetries : Nat := 2

/-- The places of the items to send again. -/
def pendingItems (current : List Item) : List Nat :=
  (current.zipIdx.filter fun entry => hasKind .retryable entry.1).map Prod.snd

/-- What follows from the outcomes of all items. -/
def judge (retriesUsed : Nat) (outcomes : List Item) : Ended ⊕ Phase :=
  if outcomes.any (hasKind .rejected) then .inl (.deadLetter "index_rejected")
  else if outcomes.any (hasKind .retryable) then
    .inl (retryOrDeadLetter retriesUsed "index_unavailable")
  else .inr (.marking outcomes)

/-- `retryFailedItems` after a round. -/
def afterRound (retriesUsed attempt : Nat) (current : List Item) : Ended ⊕ Phase :=
  if attempt < maxItemRetries ∧ pendingItems current ≠ [] then
    .inr (.retrying (attempt + 1) current (pendingItems current))
  else judge retriesUsed current

/-- An exception is caught while documents are written. -/
def caught (retriesUsed : Nat) (status : Nat) (error : Option FailureShape) : Phase → Ended
  | .bulk _ _ | .retrying _ _ _ =>
      match classifyFailure status error with
      | .rejected => .deadLetter "bulk_rejected"
      | .retryable => retryOrDeadLetter retriesUsed "bulk_unavailable"
  | _ => .thrown

/-- Whether an item is announced: one that was created or updated. -/
def announces (item : Item) : Bool :=
  match item.2 with
  | .ok result => result ≠ "noop"
  | .failed _ _ _ => false

def announcement (enriched : Enriched) (request : UpsertRequest) : IngestionProjected :=
  ⟨enriched.repositoryId, entityKindOf request, request.id, request.documentVersion,
    enriched.correlationId⟩

/-! ### All attempts -/

structure Running where
  enriched : Enriched
  retriesUsed : Nat
  phase : Phase

/-- What can be seen from outside, with the documents that Elasticsearch has changed. -/
inductive Entry
  | changed (deliveryId : String) (entityKind : ProjectedEntityKind) (entityId : String)
  | published (deliveryId : String) (event : IngestionProjected)
  | returned (deliveryId : Option String) (how : Ended)
  deriving DecidableEq, Repr

/-- The log begins with its oldest entry. -/
structure World where
  documents : Documents
  running : Nat → Option Running
  log : List Entry

def start (documents : Documents) : World := ⟨documents, fun _ => none, []⟩

inductive Action
  | receive (event : DeliveredEvent) (readings : Readings)
  | send (attempt : Attempt)
  | goOn
  | fail (status : Nat) (error : Option FailureShape)
  | crash

def Phase.next : Phase → Option UpsertRequest
  | .bulk _ (request :: _) => some request
  | .retrying _ current (place :: _) => current[place]?.map Prod.fst
  | _ => none

/-- The next item has its outcome. -/
def Phase.record (outcome : BulkItemOutcome) : Phase → Phase
  | .bulk answered (request :: rest) => .bulk (answered ++ [(request, outcome)]) rest
  | .retrying attempt current (place :: pending) =>
      .retrying attempt (current.modify place fun item => (item.1, outcome)) pending
  | phase => phase

/-- An item that a bulk response leaves out is sent again. -/
def Phase.answer (phase : Phase) (attempt : Attempt) (outcome : BulkItemOutcome) : BulkItemOutcome :=
  match phase, attempt with
  | .bulk _ _, .lost => .failed .retryable 0 "벌크 응답에 대응 항목이 없다"
  | _, _ => outcome

/-- Whether a document is created or updated by an item. -/
def changes (order : HashOrder) (documents : Documents) (delivery : Delivery) : Bool :=
  delivery.attempt.carriedOut &&
    match (update order documents delivery.address (scriptBody delivery.request)).2 with
    | .result result => result ≠ "noop"
    | .error _ _ => false

/-- What an attempt does when nothing fails: what is seen of it, and what follows. -/
def proceed (running : Running) : List Entry × (Ended ⊕ Phase) :=
  match running.phase with
  | .bulk answered [] => ([], afterRound running.retriesUsed 0 answered)
  | .retrying attempt current [] => ([], afterRound running.retriesUsed attempt current)
  | .marking outcomes => ([], .inr (.resolving outcomes))
  | .resolving outcomes => ([], .inr (.publishing outcomes))
  | .publishing (item :: rest) =>
      (if announces item then
          [.published running.enriched.deliveryId (announcement running.enriched item.1)]
        else [],
        .inr (.publishing rest))
  | .publishing [] => ([], .inl .projected)
  | phase => ([], .inr phase)

/-- An attempt has ended, or is in its next phase. -/
def World.turn (s : World) (number : Nat) (running : Running) (next : List Entry × (Ended ⊕ Phase)) :
    World :=
  match next.2 with
  | .inl ended =>
      { s with
        running := Function.update s.running number none
        log := s.log ++ next.1 ++ [.returned (some running.enriched.deliveryId) ended] }
  | .inr phase =>
      { s with
        running := Function.update s.running number (some { running with phase := phase })
        log := s.log ++ next.1 }

/-- The next item of an attempt is sent. -/
def World.sent (order : HashOrder) (s : World) (number : Nat) (running : Running) (request : UpsertRequest)
    (attempt : Attempt) : World :=
  let delivery : Delivery := ⟨request, request.entityAlias.name, attempt⟩
  let result := sendOne order s.documents delivery
  let phase := running.phase.record (running.phase.answer attempt result.2)
  { documents := result.1
    running := Function.update s.running number (some { running with phase := phase })
    log := s.log ++
      if changes order s.documents delivery then
        [.changed running.enriched.deliveryId (entityKindOf request) request.id]
      else [] }

def step (order : HashOrder) (s : World) (turn : Nat × Action) : Option World :=
  match turn.2, s.running turn.1 with
  | .receive event readings, none =>
      match prepare event readings with
      | .inl ended =>
          some { s with log := s.log ++ [.returned (event.payload.map Enriched.deliveryId) ended] }
      | .inr (enriched, phase) =>
          some { s with
            running := Function.update s.running turn.1 (some ⟨enriched, event.retriesUsed, phase⟩) }
  | .send attempt, some running =>
      running.phase.next.map fun request => s.sent order turn.1 running request attempt
  | .goOn, some running => some (s.turn turn.1 running (proceed running))
  | .fail status error, some running =>
      some (s.turn turn.1 running ([], .inl (caught running.retriesUsed status error running.phase)))
  | .crash, some _ => some { s with running := Function.update s.running turn.1 none }
  | _, _ => none

/-- The worker with all its attempts. -/
def worker (order : HashOrder) : Automaton World (Nat × Action) := ⟨step order⟩

end PrSearch.Project
