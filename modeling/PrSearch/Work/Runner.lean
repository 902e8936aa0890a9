import Mathlib.Data.Fintype.Basic
import PrSearch.Work.Lease

/-! # Runners of durable work

A runner takes one round after another: it reclaims expired leases, claims a batch, groups it by
space and runs the rows of each group one after another, the groups side by side. While a row runs,
its lease is prolonged every `workHeartbeatMs`; the rows behind it in the group wait with the lease
of the claim. Time is one clock that passes between the steps, and never past a heartbeat that is
due. A work ends with its acknowledgement; what it does to the table in between is limited to its
own row and to calls that anyone may make.
-/
namespace PrSearch.Work

open Sequence (Instant WorkKind)

def workLeaseMs : Int := 60000

def workHeartbeatMs : Int := 10000

def workClaimLimit : Nat := 8

structure WorkRunnerDeps where
  /-- `MNUMBER_ENABLED` -/
  mnumber : Bool
  leaseMs : Option Int := none
  claimLimit : Option Nat := none
  deriving DecidableEq, Repr

def WorkRunnerDeps.kinds (deps : WorkRunnerDeps) : List WorkKind :=
  if deps.mnumber then [.refresh, .project, .reconcile, .materialize, .announce]
  else [.refresh, .project]

def WorkRunnerDeps.lease (deps : WorkRunnerDeps) : Int := deps.leaseMs.getD workLeaseMs

def WorkRunnerDeps.claimOptions (deps : WorkRunnerDeps) : ClaimOptions :=
  ⟨deps.kinds, deps.claimLimit.getD workClaimLimit, deps.lease⟩

/-! ### One batch -/

def kindOrder : List WorkKind := [.refresh, .project, .reconcile, .materialize, .announce, .tag]

/-- Stable, as `Array.prototype.sort` is. -/
def sortByKind (rows : List WorkRow) : List WorkRow :=
  rows.insertionSort fun a b =>
    kindOrder.idxOf a.kind < kindOrder.idxOf b.kind ∨
      (kindOrder.idxOf a.kind = kindOrder.idxOf b.kind ∧ a.createdAt ≤ b.createdAt)

def WorkRow.spaceKey (row : WorkRow) : String := toString row.repositoryId ++ ":" ++ row.baseBranch

/-- `bySpace.set(key, [...(bySpace.get(key) ?? []), row])` -/
def addToSpace (row : WorkRow) : List (String × List WorkRow) → List (String × List WorkRow)
  | [] => [(row.spaceKey, [row])]
  | (key, rows) :: rest =>
      if key = row.spaceKey then (key, rows ++ [row]) :: rest
      else (key, rows) :: addToSpace row rest

def bySpace (claimed : List WorkRow) : List (String × List WorkRow) :=
  claimed.foldl (fun groups row => addToSpace row groups) []

/-- A work inside `runOne`, and when its next heartbeat is due. -/
structure Running where
  row : WorkRow
  nextBeat : Instant
  deriving DecidableEq, Repr

/-- A group: the row that runs and the rows that wait for their turn. -/
structure Lane where
  running : Option Running
  queue : List WorkRow
  deriving DecidableEq, Repr

def Lane.rows (lane : Lane) : List WorkRow := (lane.running.map Running.row).toList ++ lane.queue

def lanesOf (claimed : List WorkRow) : List Lane :=
  (bySpace claimed).map fun group => ⟨none, sortByKind group.2⟩

/-- How a work is acknowledged. -/
inductive Ending
  | done
  | release (next : Release)
  deriving DecidableEq, Repr

def Ending.statement (row : WorkRow) : Ending → Statement
  | done => .completeWork row.ref row.requestedGeneration
  | release next => .releaseWork row.ref next

/-! ### The system -/

/-- Where a runner is in its round. -/
inductive Phase
  | idle
  | claiming
  | working (lanes : List Lane)
  deriving DecidableEq, Repr

def Phase.lanes : Phase → List Lane
  | working lanes => lanes
  | _ => []

structure Runners (R : Type) where
  table : Table
  clock : Instant
  issued : List (Option String)
  phase : R → Phase

inductive Turn (R : Type)
  | tick (clock : Instant)
  | outside (statement : Statement)
  | reclaim (r : R)
  | claim (r : R) (locked : WorkKey → Bool) (genRandomUuid : WorkKey → String)
  | start (r : R) (lane : Nat)
  | beat (r : R) (lane : Nat)
  | call (r : R) (lane : Nat) (statement : Statement)
  | finish (r : R) (lane : Nat) (ending : Ending)
  /-- An exception out of the work, or the end of the process, takes the lane with it. -/
  | drop (r : R) (lane : Nat)
  | endRound (r : R)

/-- A call that needs no lease. -/
def Statement.Unleased : Statement → Prop
  | enqueueRefreshWork _ | requestWork _ | reclaimExpiredLeases => True
  | completeCoveredRefreshWorks _ leaseToken => leaseToken = none
  | _ => False

instance : DecidablePred Statement.Unleased
  | .completeCoveredRefreshWorks .. => inferInstanceAs (Decidable (_ = _))
  | .enqueueRefreshWork .. | .requestWork .. | .reclaimExpiredLeases =>
      inferInstanceAs (Decidable True)
  | .completeWork .. | .releaseWork .. | .updateWorkProgress .. | .heartbeatWork .. =>
      inferInstanceAs (Decidable False)

/-- A call that a running work makes with its own lease. -/
def Statement.Own (row : WorkRow) : Statement → Prop
  | updateWorkProgress lease _ => lease = row.ref
  | completeCoveredRefreshWorks _ leaseToken => leaseToken = row.leaseToken
  | _ => False

instance (row : WorkRow) : DecidablePred (Statement.Own row)
  | .updateWorkProgress .. | .completeCoveredRefreshWorks .. => inferInstanceAs (Decidable (_ = _))
  | .enqueueRefreshWork .. | .requestWork .. | .reclaimExpiredLeases | .completeWork ..
  | .releaseWork .. | .heartbeatWork .. => inferInstanceAs (Decidable False)

namespace Runners

variable {R : Type}

def initial (clock : Instant) : Runners R := ⟨.empty, clock, [], fun _ => .idle⟩

def lanes (s : Runners R) (r : R) : List Lane := (s.phase r).lanes

/-- Run a statement now. -/
def write (s : Runners R) (statement : Statement) : Option (Runners R) :=
  (accept (statement.run s.clock s.table.rows)).map fun table => { s with table := table }

/-- No heartbeat is due before `clock`. -/
def Quiet (s : Runners R) (clock : Instant) : Prop :=
  ∀ r, ∀ lane ∈ s.lanes r, ∀ run ∈ lane.running, clock ≤ run.nextBeat

instance [Fintype R] (s : Runners R) (clock : Instant) : Decidable (s.Quiet clock) :=
  inferInstanceAs (Decidable (∀ _, ∀ _ ∈ _, ∀ _ ∈ _, _))

variable [DecidableEq R]

def setPhase (s : Runners R) (r : R) (phase : Phase) : Runners R :=
  { s with phase := Function.update s.phase r phase }

def setLane (s : Runners R) (r : R) (i : Nat) (lane : Lane) : Runners R :=
  s.setPhase r (.working ((s.lanes r).set i lane))

variable [Fintype R]

def step (deps : R → WorkRunnerDeps) (s : Runners R) : Turn R → Option (Runners R)
  | .tick clock =>
      if s.clock ≤ clock ∧ s.Quiet clock then some { s with clock := clock } else none
  | .outside statement => if statement.Unleased then s.write statement else none
  | .reclaim r =>
      match s.phase r with
      | .idle => (s.write .reclaimExpiredLeases).map fun next => next.setPhase r .claiming
      | _ => none
  | .claim r locked genRandomUuid =>
      match s.phase r with
      | .claiming =>
          let (claims, rows) :=
            claimDueWork (deps r).claimOptions locked genRandomUuid s.clock s.table.rows
          let issued := claims.map WorkRow.leaseToken ++ s.issued
          if issued.Nodup then
            (accept rows).map fun table =>
              { s with table := table, issued := issued }.setPhase r (.working (lanesOf claims))
          else none
      | _ => none
  | .start r i =>
      match (s.lanes r)[i]? with
      | some ⟨none, row :: rest⟩ =>
          some (s.setLane r i ⟨some ⟨row, s.clock + workHeartbeatMs⟩, rest⟩)
      | _ => none
  | .beat r i =>
      match (s.lanes r)[i]? with
      | some ⟨some run, queue⟩ =>
          if s.clock = run.nextBeat then
            (s.write (.heartbeatWork run.row.ref (deps r).lease)).map fun next =>
              next.setLane r i ⟨some ⟨run.row, s.clock + workHeartbeatMs⟩, queue⟩
          else none
      | _ => none
  | .call r i statement =>
      match (s.lanes r)[i]? with
      | some ⟨some run, _⟩ => if statement.Own run.row then s.write statement else none
      | _ => none
  | .finish r i ending =>
      match (s.lanes r)[i]? with
      | some ⟨some run, queue⟩ =>
          (s.write (ending.statement run.row)).map fun next => next.setLane r i ⟨none, queue⟩
      | _ => none
  | .drop r i =>
      match (s.lanes r)[i]? with
      | some _ => some (s.setLane r i ⟨none, []⟩)
      | none => none
  | .endRound r =>
      match s.phase r with
      | .working lanes =>
          if ∀ lane ∈ lanes, lane.running = none ∧ lane.queue = [] then some (s.setPhase r .idle)
          else none
      | _ => none

end Runners

def running {R : Type} [DecidableEq R] [Fintype R] (deps : R → WorkRunnerDeps) :
    Automaton (Runners R) (Turn R) :=
  ⟨Runners.step deps⟩

/-! ### What is promised -/

namespace Runners

variable {R : Type}

/-- Runner `r` is inside `runOne` for `row`. -/
def Inside (s : Runners R) (r : R) (i : Nat) (row : WorkRow) : Prop :=
  ∃ lane, (s.lanes r)[i]? = some lane ∧ lane.running.map Running.row = some row

/-- No two executions of `runOne` are for one key. -/
def Exclusive (s : Runners R) : Prop :=
  ∀ r i row r' i' row', s.Inside r i row → s.Inside r' i' row' → row.workKey = row'.workKey →
    r = r' ∧ i = i'

/-- The row whose turn it is. -/
def next (s : Runners R) : Turn R → Option WorkRow
  | .start r i =>
      match (s.lanes r)[i]? with
      | some ⟨none, row :: _⟩ => some row
      | _ => none
  | _ => none

/-- A work that is started still has its lease. -/
def StartsHeld (s : Runners R) (turn : Turn R) : Prop :=
  ∀ row ∈ s.next turn, ∃ stored ∈ s.table.rows, row.ref.Holds stored

/-- The turn of a row comes while the lease of its claim still covers the time to the first
heartbeat. -/
def Prompt (s : Runners R) (turn : Turn R) : Prop :=
  ∀ row ∈ s.next turn, ∃ leaseUntil ∈ row.leaseUntil, s.clock + workHeartbeatMs ≤ leaseUntil

end Runners
end PrSearch.Work
