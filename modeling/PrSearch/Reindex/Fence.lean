import PrSearch.Reindex.Store

/-! # Fenced writes

A logical write holds the shared fence while it runs. It reads which index is the shadow, makes its
operations on the serving index and on the shadow, and collects what the shadow has refused; only when
its callback has returned is that recorded on the job, in the same section. An exception, of the
callback or of a statement, leaves the section at once.

Operations are numbered as they are made, so that a run can tell which of them the shadow lacks.
-/
namespace PrSearch.Reindex

open Jobs

/-- The alias whose partial updates may be pending. -/
def linksAlias : String := "prs-links"

/-- An operation that has taken effect on the serving index. -/
structure Operation (S : Type*) where
  stamp : Nat
  source : S

/-- What becomes of an operation on the shadow. It is not sent there when the request to the serving
index ends with an error, whether or not that has taken effect. -/
inductive Mirror
  | written
  | failed (operation reason : String)
  | pending (linkId : String)
  | unsent

structure WriteOperation (S : Type*) where
  source : S
  served : Bool
  mirror : Mirror

inductive Cause
  | failed
  | pending
  | unsent
  deriving DecidableEq

def Mirror.cause : Mirror → Option Cause
  | .written => none
  | .failed _ _ => some .failed
  | .pending _ => some .pending
  | .unsent => some .unsent

/-- An operation that the shadow lacks and that nothing has been recorded for. -/
structure Unmirrored (S : Type*) where
  operation : Operation S
  cause : Cause

structure ShadowPending (S : Type*) where
  aliasName : String
  index : String
  source : S
  linkId : String

/-- `reportShadowFailure` -/
def Mirror.failures (aliasName index : String) : Mirror → List ShadowFailure
  | .failed operation reason => [⟨aliasName, index, operation, reason⟩]
  | _ => []

/-- `reportShadowPending` -/
def Mirror.pendings {S : Type*} (aliasName index : String) (source : S) :
    Mirror → List (ShadowPending S)
  | .pending linkId => [⟨aliasName, index, source, linkId⟩]
  | _ => []

/-- Where a writer is in `withReindexWrite`. -/
inductive FenceStage
  | outside
  | locked
  | writing
  | finding
  | pending (active : Option (Nat × ReindexJob))
  | failing (active : Option (Nat × ReindexJob)) (failures : List ShadowFailure)

/-- The next statement is `recordShadowFailures`. -/
def FenceStage.hasFound : FenceStage → Bool
  | .failing _ _ => true
  | _ => false

structure FencedWrite (S : Type*) where
  stage : FenceStage := .outside
  shadow : Option String := none
  failures : List ShadowFailure := []
  pendings : List (ShadowPending S) := []
  unmirrored : List (Unmirrored S) := []

variable {S : Type*}

/-- What an operation adds to the buffers. `counted` is the operation when it is to be accounted
for. -/
def FencedWrite.write (aliasName : String) (counted : List (Operation S))
    (operation : WriteOperation S) (write : FencedWrite S) : FencedWrite S :=
  match write.shadow with
  | none => write
  | some index =>
      { write with
        failures := write.failures ++ operation.mirror.failures aliasName index
        pendings := write.pendings ++ operation.mirror.pendings aliasName index operation.source
        unmirrored := write.unmirrored ++
          match operation.mirror.cause with
          | none => []
          | some cause => counted.map fun operation => ⟨operation, cause⟩ }

/-- What an operation leaves to the shadow. -/
def FencedWrite.owes (counted : List (Operation S)) (operation : WriteOperation S)
    (write : FencedWrite S) : List (Operation S) :=
  if write.shadow.isSome && operation.mirror.cause.isNone then [] else counted

def FencedWrite.raises (aliasName : String) (operation : WriteOperation S)
    (write : FencedWrite S) : List ShadowFailure :=
  write.shadow.elim [] fun index => operation.mirror.failures aliasName index

/-! ### Recording -/

/-- The pending work belongs to the active job. -/
def owned (active : Option (Nat × ReindexJob)) (pending : ShadowPending S) : Bool :=
  match active with
  | none => false
  | some (_, job) =>
      job.state = .running && job.target = pending.aliasName &&
        job.progress.targetIndex = pending.index

/-- What `recordPendings` writes to the queue of the job. -/
def acceptedPendings (active : Option (Nat × ReindexJob)) (pendings : List (ShadowPending S)) :
    List (LinkPendingInput S) :=
  (pendings.filter (owned active)).map fun pending =>
    ⟨pending.source, .partialUpdateDocumentMissing, some pending.linkId⟩

/-- What `recordPendings` returns as failures. -/
def promotedPendings (active : Option (Nat × ReindexJob)) (pendings : List (ShadowPending S)) :
    List ShadowFailure :=
  (pendings.filter fun pending => !owned active pending).map fun pending =>
    ⟨pending.aliasName, pending.index, "bulk",
      "document_missing_exception (회수할 잡이 없다: " ++ pending.linkId ++ ")"⟩

/-- The operations that are still unaccounted for once the sources have been recorded. -/
def withoutRecorded [DecidableEq S] (sources : List S) (unmirrored : List (Unmirrored S)) :
    List (Unmirrored S) :=
  unmirrored.filter fun one => !(one.cause = .pending && sources.contains one.operation.source)

end PrSearch.Reindex
