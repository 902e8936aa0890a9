import PrSearch.Lib.Interleaving
import PrSearch.Sequence.Store

/-! # Workers, transactions and outside answers

The calls that the sequence workers make. A transaction of a worker is the list of its statements
so far; it reads the committed store with these statements replayed on top of it, and `COMMIT`
makes them the committed store at once. The advisory lock of the space belongs to a transaction and
goes with it. Answers from outside (the commit graph, the indexes, the event bus, the repository
registry) are choices of the environment, and so is the failure of any call.
-/
namespace PrSearch.Sequence

structure Repository where
  status : String
  sequenceBranches : List String
  deriving DecidableEq, Repr

structure FirstParentCommit where
  sha : Sha
  committedAt : Instant
  deriving DecidableEq, Repr

/-- Where a statement runs: on a pooled connection, or in the worker's transaction. -/
inductive Client
  | pool
  | tx
  deriving DecidableEq, Repr

/-- `sequence.assigned` and `sequence.reassigned` -/
inductive Event
  | sequenceAssigned (seqEpoch fromSeq toSeq : Int) (headSha : Sha)
  | sequenceReassigned (oldEpoch newEpoch divergedAtSeq affectedCount : Int)
  deriving DecidableEq, Repr

/-- Effects outside the tables: index projection, events, release refresh, audit, gauges. -/
inductive External
  | projectSequenceRange (seqEpoch fromExclusive toInclusive : Int)
  | publish (event : Event)
  | requestReleaseRefresh
  | recordAudit
  | refreshSequenceSpaceStates
  | clearMergeNumbersBelowEpoch
  | recordAssignmentSamples
  deriving DecidableEq, Repr

/-- What the external look-up of one commit's pull request came to. -/
inductive EvidenceScan
  | confirmed (prNumber : Int) (mergedAt : Instant)
  | unresolved (reason : BlockReason)
  deriving DecidableEq, Repr

structure Attestation where
  throughSeq : Option Int
  graceMs : Int
  deriving DecidableEq, Repr

inductive Op : Type → Type 1
  | findRepositoryById : Op (Option Repository)
  | connect : Op Unit
  | begin : Op Unit
  | commit : Op Unit
  | rollback : Op Unit
  | trySequenceSpaceLock : Op Bool
  | query {β : Type} (client : Client) (read : Store → β) : Op β
  | execute (client : Client) (write : Write) : Op Int
  | resolveHead : Op (Option Sha)
  | isAncestor (ancestor descendant : Sha) : Op Bool
  | mergeBase (a b : Sha) : Op (Option Sha)
  | firstParentRevList (fromSha : Option Sha) (toSha : Sha) : Op (List Sha)
  | firstParentCommits (fromSha : Option Sha) (toSha : Sha) : Op (List FirstParentCommit)
  | findPullRequestByMergeCommit (sha : Sha) : Op (Option Int)
  | external (what : External) : Op Unit
  | scanEvidence (row : MergeSequenceRow) : Op EvidenceScan
  | recheckPending (evidence : EvidenceRow) : Op Bool
  | findActiveAttestation (seqEpoch : Int) : Op (Option Attestation)
  | now : Op Instant
  | readClock : Op (Nat → Instant)

/-- What the environment answers to a call, should it be made now. -/
structure Choice where
  database : Option Fault := none
  /-- The lock key hashes like that of another space, which is locked. -/
  contended : Bool := false
  repository : Option Repository := none
  resolveHead : Except Fault (Option Sha) := .ok none
  isAncestor : Sha → Sha → Except Fault Bool := fun _ _ => .ok false
  mergeBase : Sha → Sha → Except Fault (Option Sha) := fun _ _ => .ok none
  firstParentRevList : Option Sha → Sha → Except Fault (List Sha) := fun _ _ => .ok []
  firstParentCommits : Option Sha → Sha → Except Fault (List FirstParentCommit) := fun _ _ => .ok []
  pullRequest : Sha → Except Fault (Option Int) := fun _ => .ok none
  external : External → Except Fault Unit := fun _ => .ok ()
  scanEvidence : MergeSequenceRow → Except Fault EvidenceScan :=
    fun _ => .ok (.unresolved .prEvidencePending)
  recheckPending : Bool := false
  attestation : Option Attestation := none
  now : Instant := 0
  /-- One reading after another. -/
  clock : Nat → Instant := fun _ => 0

/-- The committed store, the holder of the space's advisory lock, the statements of the open
transactions, and the write-ahead log: every statement that has taken effect, oldest first, with
the worker that ran it. -/
structure World (W : Type) where
  db : Store
  lock : Option W
  writes : W → List Write
  wal : List (W × Write)

section

variable {W : Type} [DecidableEq W]

namespace World

/-- Nobody has started. -/
def initial (db : Store) : World W where
  db := db
  lock := none
  writes := fun _ => []
  wal := []

/-- The statements of `w` that have taken effect, oldest first. -/
def own (s : World W) (w : W) : List Write :=
  (s.wal.filter fun entry => entry.1 = w).map Prod.snd

/-- What `w` sees from inside its transaction. -/
def view (s : World W) (w : W) : Except Fault Store := replay (s.writes w) s.db

/-- The transaction of `w` is over and so is its lock. -/
def close (s : World W) (w : W) : World W :=
  { s with
    lock := if s.lock = some w then none else s.lock
    writes := Function.update s.writes w [] }

/-- An open transaction has written the `sequence_space` row. Only the holder of the advisory lock
has statements that are not committed. -/
def spaceRowLocked (s : World W) : Bool :=
  match s.lock with
  | none => false
  | some v => (s.writes v).any Write.onSpace

end World

/-- A statement on the pool commits by itself; it waits while the row it writes is locked. -/
def executePool (w : W) (write : Write) (s : World W) : Option (Except Fault Int × World W) :=
  if write.onSpace ∧ s.spaceRowLocked then none
  else
    match write.run s.db with
    | .error fault => some (.error fault, s)
    | .ok (count, db) =>
        some (.ok count, { s with db := db, wal := s.wal ++ [(w, write)] })

def executeTx (w : W) (write : Write) (s : World W) : Except Fault Int × World W :=
  match s.view w with
  | .error fault => (.error fault, s)
  | .ok view =>
      match write.run view with
      | .error fault => (.error fault, s)
      | .ok (count, _) =>
          (.ok count, { s with writes := Function.update s.writes w (s.writes w ++ [write]) })

/-- A transaction whose `COMMIT` fails has been rolled back. -/
def commitTx (w : W) (s : World W) : Except Fault Unit × World W :=
  match s.view w with
  | .error fault => (.error fault, s.close w)
  | .ok db =>
      (.ok (), { s.close w with
        db := db
        wal := s.wal ++ (s.writes w).map fun write => (w, write) })

/-- A call that reads or fails, and changes nothing. -/
def answered {β : Type} (answer : Except Fault β) (s : World W) :
    Option (Except Fault β × World W) :=
  some (answer, s)

/-- A call to the database, which may be down. -/
def withDatabase {β : Type} (c : Choice) (s : World W)
    (up : Option (Except Fault β × World W)) : Option (Except Fault β × World W) :=
  match c.database with
  | some fault => some (.error fault, s)
  | none => up

def step (w : W) (c : Choice) : {β : Type} → Op β → World W → Option (Except Fault β × World W)
  | _, .findRepositoryById, s => withDatabase c s (answered (.ok c.repository) s)
  | _, .connect, s => withDatabase c s (answered (.ok ()) s)
  | _, .begin, s => withDatabase c s (answered (.ok ()) s)
  | _, .commit, s => withDatabase c (s.close w) (some (commitTx w s))
  | _, .rollback, s => withDatabase c (s.close w) (some (.ok (), s.close w))
  | _, .trySequenceSpaceLock, s =>
      withDatabase c s <|
        if c.contended ∨ s.lock ≠ none then answered (.ok false) s
        else some (.ok true, { s with lock := some w })
  | _, .query .pool read, s => withDatabase c s (answered (.ok (read s.db)) s)
  | _, .query .tx read, s =>
      withDatabase c s <| answered (match s.view w with
        | .error fault => .error fault
        | .ok view => .ok (read view)) s
  | _, .execute .pool write, s => withDatabase c s (executePool w write s)
  | _, .execute .tx write, s => withDatabase c s (some (executeTx w write s))
  | _, .resolveHead, s => answered c.resolveHead s
  | _, .isAncestor a b, s => answered (c.isAncestor a b) s
  | _, .mergeBase a b, s => answered (c.mergeBase a b) s
  | _, .firstParentRevList fromSha toSha, s => answered (c.firstParentRevList fromSha toSha) s
  | _, .firstParentCommits fromSha toSha, s => answered (c.firstParentCommits fromSha toSha) s
  | _, .findPullRequestByMergeCommit sha, s => answered (c.pullRequest sha) s
  | _, .external what, s => answered (c.external what) s
  | _, .scanEvidence row, s => answered (c.scanEvidence row) s
  | _, .recheckPending _, s => answered (.ok c.recheckPending) s
  | _, .findActiveAttestation _, s => withDatabase c s (answered (.ok c.attestation) s)
  | _, .now, s => answered (.ok c.now) s
  | _, .readClock, s => answered (.ok c.clock) s

/-- The workers of one space, with the outside answers restricted to `allow`. -/
def machine (W : Type) [DecidableEq W] (allow : Choice → Prop) :
    Machine Op Fault W Choice (World W) where
  step := step
  admits _ c _ _ _ := allow c

end

/-! ### Shorthands of the programs -/

abbrev Program (α : Type) := Prog Op Fault α

namespace Program

def query {β : Type} (client : Client) (read : Store → β) : Program β := .perform (.query client read)

def execute (client : Client) (write : Write) : Program Int := .perform (.execute client write)

/-- `if (c) { … }` -/
def when (c : Prop) [Decidable c] (p : Program Unit) : Program Unit := if c then p else pure ()

/-- A call whose failure the program looks at itself. -/
def attempt {β : Type} (op : Op β) : Program (Except Fault β) := .call op .ret

/-- A call whose failure is swallowed. -/
def quietly (op : Op Unit) : Program Unit := .call op fun _ => .ret ()

end Program

end PrSearch.Sequence
