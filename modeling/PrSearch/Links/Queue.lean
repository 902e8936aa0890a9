import PrSearch.Links.Remembered

/-! # The queue of commits whose links are shown again

A commit whose links have changed gets a greater generation. Workers lease the commits whose
generation has not been shown, read what there is to be shown together with the generation, write it
into the document of the commit and acknowledge the generation they have read. A lease ends as well when
the writing fails, when the worker dies, or when it lasts too long; then the worker goes on, but what
it says of the row does not count any more.
-/
namespace PrSearch.Links

open Query (Text)
open PrSearch.Relation (Sha)
open Index.CommitLinks (CommitLinkState CommitLinkOutcome CommitLinkUpdate LinkSource
  applyCommitLinks)
open Rows

inductive CommitLinkWorkState
  | ready
  | leased
  | retry
  | parked
  | done
  deriving DecidableEq, Repr

/-- A lease is told by a token that is made for it: the worker and the number of its claim. -/
structure CommitLinkStateRow (W : Type) where
  commitSha : Sha
  generation : Int
  projectedGeneration : Int
  projectedNumbers : Option (List Nat) := none
  state : CommitLinkWorkState
  leaseToken : Option (W × Nat) := none
  attemptCount : Nat := 0
  lastReason : Option Text := none

abbrev CommitLinkStates (W : Type) := Table (@CommitLinkStateRow.commitSha W)

/-- `readCommitLinkProjection`: one statement reads all of it. -/
structure CommitLinkProjection where
  generation : Int
  numbers : List Nat
  verified : Bool

/-- How the writing has ended. -/
inductive Answer
  | outcome (outcome : CommitLinkOutcome)
  | error (reason : Text)
  deriving DecidableEq

/-- Where a worker is with a commit: it has read the tables, has found no reason in the document not
to write, or has its answer. -/
inductive Stage
  | read
  | admitted
  | answered (answer : Answer)

/-- A worker has nothing, has these rows before it, or is at the first of them. -/
inductive Phase (W : Type)
  | idle
  | claimed (rows : List (CommitLinkStateRow W))
  | busy (row : CommitLinkStateRow W) (canonical : CommitLinkProjection) (stage : Stage)
      (rest : List (CommitLinkStateRow W))

/-- The tables, the documents of the commits and the workers. `givenUp` is in no table: it is the
generation that had been read for the row when it was parked. -/
structure World (W : Type) where
  repositoryId : Int
  tables : LinkTables
  states : CommitLinkStates W
  documents : Sha → Option LinkSource
  phase : W → Phase W
  claims : Nat
  givenUp : Sha → Option Int

/-! ### Statements -/

def maxRetries : Nat := 5

def generationConflict : Text := "generation_conflict".toList

section Statements

variable {W : Type}

/-- The row of a commit that is asked for. -/
def bumpedRow (row : CommitLinkStateRow W) : CommitLinkStateRow W :=
  { row with
    generation := row.generation + 1
    state := if row.state = .leased then .leased else .ready
    attemptCount := if row.state = .leased then row.attemptCount else 0 }

def findCommitLinkState (states : CommitLinkStates W) (sha : Sha) : Option (CommitLinkStateRow W) :=
  states.rows.find? fun row => row.commitSha = sha

def bumpCommitLinkGeneration (states : CommitLinkStates W) (sha : Sha) : CommitLinkStates W :=
  match findCommitLinkState states sha with
  | none => states.put
      { commitSha := sha, generation := 1, projectedGeneration := 0, state := .ready }
  | some row => states.put (bumpedRow row)

def bumpCommitLinkGenerations (states : CommitLinkStates W) (shas : List Sha) : CommitLinkStates W :=
  shas.foldl bumpCommitLinkGeneration states

/-- What a claim may take. -/
def isDue (row : CommitLinkStateRow W) : Bool :=
  (row.state = .ready || row.state = .retry) && row.projectedGeneration < row.generation

def leasedRow (token : W × Nat) (row : CommitLinkStateRow W) : CommitLinkStateRow W :=
  { row with
    state := .leased
    leaseToken := some token
    attemptCount := row.attemptCount + 1 }

def claimedRow (chosen : List Sha) (token : W × Nat) (row : CommitLinkStateRow W) :
    CommitLinkStateRow W :=
  if isDue row && chosen.contains row.commitSha then leasedRow token row else row

def reclaimedRow (expired : List Sha) (row : CommitLinkStateRow W) : CommitLinkStateRow W :=
  if row.state = .leased && expired.contains row.commitSha then
    { row with
      state := .retry
      leaseToken := none
      lastReason := some "lease_expired".toList }
  else row

/-- How a worker leaves a row. -/
inductive Exit
  | complete (generation : Int) (numbers : List Nat)
  | release (state : CommitLinkWorkState) (reason : Text)

/-- `completeCommitLink` and `releaseCommitLink`, on a row whose lease is still that of the worker. -/
def Exit.row : Exit → CommitLinkStateRow W → CommitLinkStateRow W
  | .complete generation numbers, row =>
      { row with
        projectedGeneration := max row.projectedGeneration generation
        projectedNumbers := some numbers
        state := if generation < row.generation then .ready else .done
        leaseToken := none
        lastReason := none
        attemptCount := 0 }
  | .release state reason, row =>
      { row with
        state := state
        lastReason := some (reason.take 200)
        leaseToken := none }

/-- The lease of the worker, if it still has it. -/
def held [DecidableEq W] (lease row : CommitLinkStateRow W) : Bool :=
  row.commitSha = lease.commitSha && row.leaseToken = lease.leaseToken && row.state = .leased

def leftRow [DecidableEq W] (lease : CommitLinkStateRow W) (exit : Exit)
    (row : CommitLinkStateRow W) : CommitLinkStateRow W :=
  if held lease row then exit.row row else row

/-- The end of `runCommitLinkOnce` with a row. -/
def exitOf (row : CommitLinkStateRow W) (canonical : CommitLinkProjection) : Answer → Exit
  | .error reason => .release (if maxRetries ≤ row.attemptCount then .parked else .retry) reason
  | .outcome .documentMissing =>
      if canonical.numbers = [] then .complete canonical.generation []
      else .release (if maxRetries ≤ row.attemptCount then .parked else .retry)
        "document_missing".toList
  | .outcome .conflict => .release .parked generationConflict
  | .outcome .stale | .outcome .updated | .outcome .noop =>
      .complete canonical.generation canonical.numbers

theorem commitSha_claimedRow (chosen : List Sha) (token : W × Nat) (row : CommitLinkStateRow W) :
    (claimedRow chosen token row).commitSha = row.commitSha := by
  unfold claimedRow
  split <;> rfl

theorem commitSha_reclaimedRow (expired : List Sha) (row : CommitLinkStateRow W) :
    (reclaimedRow expired row).commitSha = row.commitSha := by
  unfold reclaimedRow
  split <;> rfl

theorem commitSha_exit (exit : Exit) (row : CommitLinkStateRow W) :
    (exit.row row).commitSha = row.commitSha := by
  cases exit <;> rfl

theorem commitSha_leftRow [DecidableEq W] (lease : CommitLinkStateRow W) (exit : Exit)
    (row : CommitLinkStateRow W) : (leftRow lease exit row).commitSha = row.commitSha := by
  unfold leftRow
  split
  · exact commitSha_exit exit row
  · rfl

end Statements

/-! ### Steps -/

/-- A transaction, a new document, the end of leases, or a turn of a worker: it claims, reads the
tables, gets the document, runs the script (whose answer may be lost), fails, leaves the row, or dies.
Which rows a claim takes is left open, and when a lease has expired. -/
inductive Action (W : Type)
  | change (change : LinkChange)
  | createDocument (sha : Sha)
  | reclaim (expired : List Sha)
  | claim (worker : W) (chosen : List Sha)
  | read (worker : W)
  | get (worker : W)
  | script (worker : W) (lost : Option Text)
  | fail (worker : W) (reason : Text)
  | leave (worker : W)
  | crash (worker : W)

namespace World

variable {W : Type} [DecidableEq W] (s : World W)

def readCommitLinkProjection (sha : Sha) : Option CommitLinkProjection :=
  (findCommitLinkState s.states sha).map fun row =>
    ⟨row.generation, listLinkedPullRequestNumbers s.tables sha, verifiedLinks s.tables sha⟩

/-- The update that is sent for a commit. -/
def linkUpdate (sha : Sha) (canonical : CommitLinkProjection) : CommitLinkUpdate where
  repositoryId := s.repositoryId
  commitSha := String.ofList sha.text
  numbers := canonical.numbers.map fun (n : Nat) => (n : Int)
  generation := canonical.generation
  state := if canonical.verified then .verified else .partial_

def goTo (worker : W) (phase : Phase W) : World W :=
  { s with phase := Function.update s.phase worker phase }

/-- The next row, or a new cycle. -/
def nextPhase : List (CommitLinkStateRow W) → Phase W
  | [] => .idle
  | rows => .claimed rows

/-- Whether the exit parks a row. -/
def givenUpAfter (row : CommitLinkStateRow W) (canonical : CommitLinkProjection) (exit : Exit) :
    Sha → Option Int :=
  match exit with
  | .release .parked _ =>
      if s.states.rows.any (held row) then
        Function.update s.givenUp row.commitSha (some canonical.generation)
      else s.givenUp
  | _ => s.givenUp

def step : Action W → Option (World W)
  | .change change => (s.tables.change change).map fun (tables, raised) =>
      { s with
        tables := tables
        states := bumpCommitLinkGenerations s.states raised }
  | .createDocument sha =>
      match s.documents sha with
      | none => some { s with documents := Function.update s.documents sha (some {}) }
      | some _ => none
  | .reclaim expired =>
      some { s with states := s.states.update (reclaimedRow expired) (commitSha_reclaimedRow expired) }
  | .claim worker chosen =>
      match s.phase worker with
      | .idle =>
          let token := (worker, s.claims)
          let due := s.states.rows.filter fun row => isDue row && chosen.contains row.commitSha
          some { s with
            states := s.states.update (claimedRow chosen token) (commitSha_claimedRow chosen token)
            claims := s.claims + 1
            phase := Function.update s.phase worker (nextPhase (due.map (leasedRow token))) }
      | _ => none
  | .read worker =>
      match s.phase worker with
      | .claimed (row :: rest) =>
          some <| s.goTo worker <|
            match s.readCommitLinkProjection row.commitSha with
            | none => nextPhase rest
            | some canonical => .busy row canonical .read rest
      | _ => none
  | .get worker =>
      match s.phase worker with
      | .busy row canonical .read rest =>
          some <| s.goTo worker <| .busy row canonical
            ((applyCommitLinks.read (s.linkUpdate row.commitSha canonical)
              (s.documents row.commitSha)).elim .admitted fun outcome => .answered (.outcome outcome))
            rest
      | _ => none
  | .script worker lost =>
      match s.phase worker with
      | .busy row canonical .admitted rest =>
          let written := applyCommitLinks.update (s.linkUpdate row.commitSha canonical)
            (s.documents row.commitSha)
          let answer := lost.elim (.outcome (applyCommitLinks.settle written.isSome)) .error
          some { s.goTo worker (.busy row canonical (.answered answer) rest) with
            documents := Function.update s.documents row.commitSha
              (written.getD (s.documents row.commitSha)) }
      | _ => none
  | .fail worker reason =>
      match s.phase worker with
      | .busy row canonical .read rest | .busy row canonical .admitted rest =>
          some (s.goTo worker (.busy row canonical (.answered (.error reason)) rest))
      | _ => none
  | .leave worker =>
      match s.phase worker with
      | .busy row canonical (.answered answer) rest =>
          let exit := exitOf row canonical answer
          some { s.goTo worker (nextPhase rest) with
            states := s.states.update (leftRow row exit) (commitSha_leftRow row exit)
            givenUp := s.givenUpAfter row canonical exit }
      | _ => none
  | .crash worker => some (s.goTo worker .idle)

end World

/-- The queue with its writers and workers. -/
def linkQueue (W : Type) [DecidableEq W] : Automaton (World W) (Action W) := ⟨World.step⟩

end PrSearch.Links
