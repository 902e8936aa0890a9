import PrSearch.DeadLetter.Table
import PrSearch.Lib.Automaton

/-! # Failing, reprocessing and relaying

Deliveries are enriched and projected; what fails is recorded. Operators put failed deliveries back on the
ingest stream, by the identifiers of rows or by a filter, and the relay puts back what was not processed for
long. Each statement and each publication is a step of its own, and any of these programs may stop between
two of them.
-/
namespace PrSearch.DeadLetter

/-- `raw_event` -/
structure RawEvent where
  deliveryId : String
  queuedAt : Int
  processed : Bool
  deriving DecidableEq, Repr

/-- `EVT-ING-002`; `missing` tells the components without an answer. -/
structure Enrichment where
  deliveryId : String
  missing : Option String
  deriving DecidableEq, Repr

/-! ### Requests of operators -/

/-- `MAX_REPROCESS_BATCH` -/
def maxReprocessBatch : Nat := 500

/-- `CONFIRMATION_REQUIRED_ABOVE` -/
def confirmationRequiredAbove : Nat := 100

structure ReprocessRequest where
  deadLetterIds : Option (List Nat)
  filter : Option DeadLetterFilter
  confirmation : Option String

inductive AdminRejected
  | invalidParameter (message : String)
  | rangeTooLarge (limit found : Nat)
  | confirmationMismatch (required : String)
  deriving DecidableEq, Repr

def resolveTargets (rows : List DeadLetterRow) (request : ReprocessRequest) :
    Except AdminRejected (List DeadLetterRow) :=
  match request.deadLetterIds with
  | some [] => .error (.invalidParameter "재처리할 항목이 없다")
  | some ids => .ok (findByIds rows ids)
  | none =>
      match request.filter with
      | none => .error (.invalidParameter "dead_letter_ids 또는 filter가 필요하다")
      | some filter =>
          .ok (listDeadLetters rows { filter with states := some (filter.states.getD openStates) }
            (maxReprocessBatch + 1))

/-- The rows that a request may put back, without those whose raw event is gone. -/
def injectable (rows : List DeadLetterRow) (raw : List RawEvent) (request : ReprocessRequest) :
    Except AdminRejected (List DeadLetterRow) :=
  match resolveTargets rows request with
  | .error rejected => .error rejected
  | .ok targets =>
      if maxReprocessBatch < targets.length then .error (.rangeTooLarge maxReprocessBatch targets.length)
      else if confirmationRequiredAbove < targets.length ∧
          request.confirmation ≠ some (toString targets.length) then
        .error (.confirmationMismatch (toString targets.length))
      else .ok (targets.filter fun row => raw.any fun event => event.deliveryId = row.deliveryId)

/-! ### The system -/

/-- Who puts a delivery back. -/
inductive Cause
  | byIds
  | byFilter
  | relay
  deriving DecidableEq, Repr

def ReprocessRequest.cause (request : ReprocessRequest) : Cause :=
  if request.deadLetterIds.isSome then .byIds else .byFilter

/-- What has happened. -/
inductive Fact
  | recorded (key : Key) (error : Failure)
  | projected (deliveryId : String) (missing : Bool)
  | marked (cause : Cause) (keys : List Key)
  | unpublished (key : Key) (reverted : Bool)
  | putBack (cause : Cause) (deliveryId : String)
  deriving DecidableEq, Repr

/-- What a program has still to do. -/
inductive Task
  | recording (input : DeadLetterInput)
  | resolving (enrichment : Enrichment)
  | marking (cause : Cause) (targets : List DeadLetterRow)
  | publishing (cause : Cause) (rest : List DeadLetterRow)
  | reverting (cause : Cause) (row : DeadLetterRow) (rest : List DeadLetterRow)
  | relaying (rest : List RawEvent)

structure World where
  rows : List DeadLetterRow
  nextId : Nat
  raw : List RawEvent
  ingest : List String
  enriched : List Enrichment
  tasks : Nat → Option Task
  log : List Fact

def start : World := ⟨[], 1, [], [], [], fun _ => none, []⟩

inductive Enriching
  | complete
  | partly (components : String)
  | failed (detail : String)

inductive Action
  | receive (deliveryId : String) (now : Int)
  | enrich (deliveryId : String) (repositoryId : Option Int) (retryCount : Nat) (result : Enriching)
  | fail (input : DeadLetterInput)
  | record (now : Int)
  | project (enrichment : Enrichment)
  | resolve
  | ask (request : ReprocessRequest)
  | mark
  | publish (succeeds : Bool)
  | revert (succeeds : Bool)
  | relay (threshold : Int) (limit : Nat)
  | relayNext (now : Int) (published queued : Bool)
  | crash

namespace World

def doing (s : World) (program : Nat) (task : Option Task) : World :=
  { s with tasks := Function.update s.tasks program task }

/-- `findStuckOutboxEvents` -/
def stuckOutboxEvents (s : World) (threshold : Int) (limit : Nat) : List RawEvent :=
  Rows.select (fun event other : RawEvent => event.queuedAt ≤ other.queuedAt) s.raw
    (fun event => !event.processed && event.queuedAt < threshold) limit

/-- The gateway stores a delivery once, and publishes what it has stored. -/
def received (s : World) (deliveryId : String) (now : Int) : World :=
  if s.raw.any fun event => event.deliveryId = deliveryId then s
  else { s with
    raw := s.raw ++ [⟨deliveryId, now, false⟩]
    ingest := s.ingest ++ [deliveryId] }

/-- A delivery from the ingest stream. A partial enrichment is published before its failure is recorded. -/
def enriching (s : World) (program : Nat) (deliveryId : String) (repositoryId : Option Int) (retryCount : Nat) :
    Enriching → World
  | .complete => { s with enriched := s.enriched ++ [⟨deliveryId, none⟩] }
  | .partly components =>
      ({ s with enriched := s.enriched ++ [⟨deliveryId, some components⟩] } : World).doing program
        (some (.recording ⟨deliveryId, .enrich, repositoryId, .incomplete components, retryCount⟩))
  | .failed detail =>
      s.doing program (some (.recording ⟨deliveryId, .enrich, repositoryId, .other detail, retryCount⟩))

def recorded (s : World) (program : Nat) (input : DeadLetterInput) (now : Int) : World :=
  { s with
    rows := recordDeadLetter s.rows input s.nextId now
    nextId := s.nextId + 1
    tasks := Function.update s.tasks program none
    log := s.log ++ [.recorded input.key input.error] }

/-- `markProcessed` -/
def projecting (s : World) (program : Nat) (enrichment : Enrichment) : World :=
  { s with
    raw := s.raw.map fun event =>
      if event.deliveryId = enrichment.deliveryId then { event with processed := true } else event
    tasks := Function.update s.tasks program (some (.resolving enrichment)) }

def resolved (s : World) (program : Nat) (enrichment : Enrichment) : World :=
  { s with
    rows := resolveByDelivery s.rows enrichment.deliveryId
    tasks := Function.update s.tasks program none
    log := s.log ++ [.projected enrichment.deliveryId enrichment.missing.isSome] }

def marked (s : World) (program : Nat) (cause : Cause) (targets : List DeadLetterRow) : World :=
  { s with
    rows := markReprocessing s.rows (targets.map DeadLetterRow.deadLetterId)
    tasks := Function.update s.tasks program (some (.publishing cause targets))
    log := s.log ++ [.marked cause (targets.map DeadLetterRow.key)] }

def putBack (s : World) (program : Nat) (task : Task) (cause : Cause) (deliveryId : String) : World :=
  { s with
    ingest := s.ingest ++ [deliveryId]
    tasks := Function.update s.tasks program (some task)
    log := s.log ++ [.putBack cause deliveryId] }

def reverted (s : World) (program : Nat) (cause : Cause) (row : DeadLetterRow) (rest : List DeadLetterRow)
    (succeeds : Bool) : World :=
  { s with
    rows := if succeeds then revertReprocessing s.rows row.deadLetterId else s.rows
    tasks := Function.update s.tasks program (some (.publishing cause rest))
    log := s.log ++ [.unpublished row.key succeeds] }

/-- `markQueued` -/
def requeued (s : World) (deliveryId : String) (now : Int) : World :=
  { s with
    raw := s.raw.map fun event =>
      if event.deliveryId = deliveryId then { event with queuedAt := now } else event }

end World

def step (s : World) (turn : Nat × Action) : Option World :=
  match turn.2, s.tasks turn.1 with
  | .receive deliveryId now, none => some (s.received deliveryId now)
  | .enrich deliveryId repositoryId retryCount result, none =>
      if deliveryId ∈ s.ingest then some (s.enriching turn.1 deliveryId repositoryId retryCount result)
      else none
  | .fail input, none => some (s.doing turn.1 (some (.recording input)))
  | .record now, some (.recording input) => some (s.recorded turn.1 input now)
  | .project enrichment, none =>
      if enrichment ∈ s.enriched then some (s.projecting turn.1 enrichment) else none
  | .resolve, some (.resolving enrichment) => some (s.resolved turn.1 enrichment)
  | .ask request, none =>
      match injectable s.rows s.raw request with
      | .error _ => some s
      | .ok targets => some (s.doing turn.1 (some (.marking request.cause targets)))
  | .mark, some (.marking cause targets) => some (s.marked turn.1 cause targets)
  | .publish succeeds, some (.publishing cause (row :: rest)) =>
      some (if succeeds then s.putBack turn.1 (.publishing cause rest) cause row.deliveryId
        else s.doing turn.1 (some (.reverting cause row rest)))
  | .publish _, some (.publishing _ []) => some (s.doing turn.1 none)
  | .revert succeeds, some (.reverting cause row rest) =>
      some (s.reverted turn.1 cause row rest succeeds)
  | .relay threshold limit, none =>
      some (s.doing turn.1 (some (.relaying (s.stuckOutboxEvents threshold limit))))
  | .relayNext now published queued, some (.relaying (event :: rest)) =>
      let relayed := s.putBack turn.1 (.relaying rest) .relay event.deliveryId
      some (if ¬ published then s.doing turn.1 (some (.relaying rest))
        else if queued then relayed.requeued event.deliveryId now
        else relayed)
  | .relayNext _ _ _, some (.relaying []) => some (s.doing turn.1 none)
  | .crash, some _ => some (s.doing turn.1 none)
  | _, _ => none

def queue : Automaton World (Nat × Action) := ⟨step⟩

end PrSearch.DeadLetter
