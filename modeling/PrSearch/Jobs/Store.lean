import Mathlib.Data.List.Basic

/-! # The table of jobs

The rows of `job` of one type, and the statements of its repository. The rows stand in the order of
their ids, and the id of a row is its place: ids are handed out in sequence and rows are never
removed. A statement that changes a row names the states it may change it from, so that it does
nothing to a row in any other state; what it changes is decided in one piece.
-/
namespace PrSearch.Jobs

inductive JobState
  | queued
  | running
  | paused
  | completed
  | failed
  | cancelled
  deriving DecidableEq, Repr

/-- `ACTIVE_JOB_STATES` -/
def activeJobStates : List JobState := [.queued, .running, .paused]

def JobState.active (state : JobState) : Bool := activeJobStates.contains state

inductive JobAction
  | pause
  | resume
  | cancel
  deriving DecidableEq, Repr

/-- `ALLOWED_FROM` -/
def allowedFrom : JobAction → List JobState
  | .pause => [.queued, .running]
  | .resume => [.paused]
  | .cancel => [.queued, .running, .paused]

/-- `NEXT_STATE` -/
def nextState : JobAction → JobState
  | .pause => .paused
  | .resume => .queued
  | .cancel => .cancelled

/-- `JOB_ACTION_ORDER` -/
def jobActionOrder : List JobAction := [.pause, .resume, .cancel]

def allowedActionsFor (state : JobState) : List JobAction :=
  jobActionOrder.filter fun action => (allowedFrom action).contains state

/-- How a runner ends a job. -/
inductive JobEnd
  | completed
  | failed
  deriving DecidableEq, Repr

def JobEnd.state : JobEnd → JobState
  | .completed => .completed
  | .failed => .failed

structure JobRow (π : Type*) where
  target : String
  state : JobState
  progress : π
  error : Option String := none

variable {π : Type*}

/-! ### Statements about one row -/

/-- `UPDATE job SET … WHERE state = ANY(…)` -/
def JobRow.updateFrom (allowed : List JobState) (set : JobRow π → JobRow π) (row : JobRow π) :
    Option (JobRow π) :=
  if row.state ∈ allowed then some (set row) else none

def JobRow.finishJobIfRunning (ending : JobEnd) (error : Option String) : JobRow π → Option (JobRow π) :=
  JobRow.updateFrom [.running] fun row => { row with state := ending.state, error := error }

def JobRow.transitionJob (action : JobAction) : JobRow π → Option (JobRow π) :=
  JobRow.updateFrom (allowedFrom action) fun row => { row with state := nextState action }

/-- The update of `claimNextJob`, on the row that it has locked. -/
def JobRow.claim : JobRow π → Option (JobRow π) :=
  JobRow.updateFrom [.queued] fun row => { row with state := .running }

/-! ### Statements about the table -/

/-- A statement about the row of an id. -/
def onRow (statement : JobRow π → Option (JobRow π)) (jobs : List (JobRow π)) (jobId : Nat) :
    Option (List (JobRow π)) :=
  (jobs[jobId]?.bind statement).map (jobs.set jobId)

def finishJobIfRunning (jobs : List (JobRow π)) (jobId : Nat) (ending : JobEnd)
    (error : Option String) : Option (List (JobRow π)) :=
  onRow (JobRow.finishJobIfRunning ending error) jobs jobId

def transitionJob (jobs : List (JobRow π)) (jobId : Nat) (action : JobAction) :
    Option (List (JobRow π)) :=
  onRow (JobRow.transitionJob action) jobs jobId

def findJobState (jobs : List (JobRow π)) (jobId : Nat) : Option JobState :=
  jobs[jobId]?.map JobRow.state

def isJobRunning (jobs : List (JobRow π)) (jobId : Nat) : Bool :=
  findJobState jobs jobId = some .running

def runningCount (jobs : List (JobRow π)) : Nat := jobs.countP (·.state = .running)

/-- The first queued row that is not locked by another transaction. -/
def nextQueued (locked : Nat → Bool) (jobs : List (JobRow π)) : Option Nat :=
  (jobs.zipIdx.find? fun entry => entry.1.state = .queued && !locked entry.2).map Prod.snd

/-- `claimNextJob`, whose transactions come one after the other. The count may only have gone down
by the time of the update. -/
def claimNextJob (locked : Nat → Bool) (jobs : List (JobRow π)) (maxConcurrent : Nat) :
    Option (Nat × List (JobRow π)) :=
  if maxConcurrent ≤ runningCount jobs then none
  else
    match nextQueued locked jobs with
    | none => none
    | some jobId => (onRow JobRow.claim jobs jobId).map fun claimed => (jobId, claimed)

/-- `enqueueJob`, under `job_active_uk`: it fails when the target has an active job. -/
def enqueueJob (jobs : List (JobRow π)) (target : String) (progress : π) :
    Option (List (JobRow π)) :=
  if jobs.any fun row => row.target = target && row.state.active then none
  else some (jobs ++ [{ target, state := .queued, progress }])

variable {row updated : JobRow π} {statement : JobRow π → Option (JobRow π)}
  {jobs next : List (JobRow π)} {jobId : Nat}

/-! ### What a statement does to a row -/

theorem updateFrom_eq_some {allowed : List JobState} {set : JobRow π → JobRow π}
    (update : row.updateFrom allowed set = some updated) :
    row.state ∈ allowed ∧ updated = set row := by
  unfold JobRow.updateFrom at update
  split at update
  next inside => exact ⟨inside, (Option.some.inj update).symm⟩
  next => cases update

variable {ending : JobEnd} {error : Option String} {action : JobAction} {other : Nat}

theorem finishJobIfRunning_eq_some (finished : row.finishJobIfRunning ending error = some updated) :
    row.state = .running ∧ updated = { row with state := ending.state, error := error } := by
  obtain ⟨inside, rfl⟩ := updateFrom_eq_some finished
  exact ⟨List.mem_singleton.mp inside, rfl⟩

theorem transitionJob_eq_some (transition : row.transitionJob action = some updated) :
    row.state ∈ allowedFrom action ∧ updated = { row with state := nextState action } :=
  updateFrom_eq_some transition

theorem claim_eq_some (claimed : row.claim = some updated) :
    row.state = .queued ∧ updated = { row with state := .running } := by
  obtain ⟨inside, rfl⟩ := updateFrom_eq_some claimed
  exact ⟨List.mem_singleton.mp inside, rfl⟩

/-- Only a claim makes a job run. -/
theorem nextState_ne_running (action : JobAction) : nextState action ≠ .running := by
  cases action <;> decide

theorem JobEnd.state_ne_running (ending : JobEnd) : ending.state ≠ .running := by
  cases ending <;> decide

/-! ### What a statement does to the table -/

theorem onRow_eq_some (done : onRow statement jobs jobId = some next) :
    ∃ row updated, jobs[jobId]? = some row ∧ statement row = some updated ∧
      next = jobs.set jobId updated := by
  obtain ⟨updated, update, rfl⟩ := Option.map_eq_some_iff.mp done
  obtain ⟨row, found, update⟩ := Option.bind_eq_some_iff.mp update
  exact ⟨row, updated, found, update, rfl⟩

theorem length_onRow (done : onRow statement jobs jobId = some next) :
    next.length = jobs.length := by
  obtain ⟨row, updated, -, -, rfl⟩ := onRow_eq_some done
  exact List.length_set

/-- Every other row stays as it is. -/
theorem row_of_onRow (done : onRow statement jobs jobId = some next)
    (found : next[other]? = some row) :
    other ≠ jobId ∧ jobs[other]? = some row ∨
      other = jobId ∧ ∃ before, jobs[jobId]? = some before ∧ statement before = some row := by
  obtain ⟨before, updated, there, update, rfl⟩ := onRow_eq_some done
  rw [List.getElem?_set] at found
  split at found
  next same =>
    split at found
    next =>
      cases found
      exact .inr ⟨same.symm, before, there, update⟩
    next => cases found
  next other => exact .inl ⟨fun same => other same.symm, found⟩

theorem claimNextJob_eq_some {locked : Nat → Bool} {maxConcurrent : Nat}
    (claimed : claimNextJob locked jobs maxConcurrent = some (jobId, next)) :
    runningCount jobs < maxConcurrent ∧ onRow JobRow.claim jobs jobId = some next := by
  unfold claimNextJob at claimed
  split at claimed
  next => cases claimed
  next below =>
    split at claimed
    next => cases claimed
    next =>
      obtain ⟨rows, update, same⟩ := Option.map_eq_some_iff.mp claimed
      cases same
      exact ⟨Nat.lt_of_not_le below, update⟩

/-! ### Active jobs -/

/-- The job has not ended. -/
def ActiveAt (jobs : List (JobRow π)) (jobId : Nat) : Prop :=
  ∃ row, jobs[jobId]? = some row ∧ row.state.active = true

/-- A job that has ended does not become active again. -/
theorem ActiveAt.of_onRow
    (keeps : ∀ row updated, statement row = some updated → updated.state.active = true →
      row.state.active = true) (done : onRow statement jobs jobId = some next)
    (active : ActiveAt next other) : ActiveAt jobs other := by
  obtain ⟨row, found, state⟩ := active
  rcases row_of_onRow done found with ⟨-, same⟩ | ⟨rfl, before, there, update⟩
  · exact ⟨row, same, state⟩
  · exact ⟨before, there, keeps before row update state⟩

/-- No action is allowed on a job that has ended. -/
theorem active_of_allowedFrom (action : JobAction) (state : JobState)
    (allowed : state ∈ allowedFrom action) : state.active = true := by
  revert allowed
  cases action <;> cases state <;> decide

theorem active_of_transitionJob (transition : row.transitionJob action = some updated) :
    row.state.active = true :=
  active_of_allowedFrom action row.state (transitionJob_eq_some transition).1

theorem active_of_claim (claimed : row.claim = some updated) : row.state.active = true := by
  rw [(claim_eq_some claimed).1]
  rfl

theorem active_of_finishJobIfRunning (finished : row.finishJobIfRunning ending error = some updated) :
    row.state.active = true := by
  rw [(finishJobIfRunning_eq_some finished).1]
  rfl

end PrSearch.Jobs
