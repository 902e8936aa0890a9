import Mathlib.Data.Finset.Card
import Mathlib.Data.Finset.Option
import Mathlib.Data.Fintype.Basic
import PrSearch.Lib.Automaton
import PrSearch.Jobs.Store

/-! # Backfill runners

Runners take jobs from one queue and work through the pages of the repository, while an operator
pauses, resumes and cancels jobs. Nothing but the state of its row says who a job belongs to: a runner
looks at it between two pages and when it finishes, and goes on when the job is running, whoever has
set that. So a job that is paused and resumed while a page is in work may be claimed a second time, and
one that is paused no longer counts for the limit although its page goes on.
-/
namespace PrSearch.Jobs.Backfill

/-! ### The plan of a backfill -/

structure BackfillCursor where
  page : Int
  done : Int
  deriving DecidableEq

/-- `FIRST` -/
def firstCursor : BackfillCursor := ⟨1, 0⟩

def readCursor : Option BackfillCursor → BackfillCursor
  | none => firstCursor
  | some cursor => if cursor.page < 1 ∨ cursor.done < 0 then firstCursor else cursor

def advanceCursor (current : BackfillCursor) (processed : Nat) : BackfillCursor :=
  ⟨current.page + 1, current.done + processed⟩

structure BackfillProgress where
  done : Int
  total : Option Int
  waitingUntil : Option String

def buildProgress (cursor : BackfillCursor) (total : Option Int) (waitingUntil : Option String) :
    BackfillProgress :=
  ⟨cursor.done, total, waitingUntil⟩

/-- The columns `progress` and `cursor`. -/
structure BackfillColumns where
  progress : Option BackfillProgress := none
  cursor : Option BackfillCursor := none

abbrev BackfillJob := JobRow BackfillColumns

def updateJobProgress (jobs : List BackfillJob) (jobId : Nat) (progress : BackfillProgress)
    (cursor : BackfillCursor) : Option (List BackfillJob) :=
  onRow (fun row => some { row with progress := ⟨some progress, some cursor⟩ }) jobs jobId

/-! ### The runners -/

/-- Where a runner is in its loop, and in `runBackfillJob`. -/
inductive RunnerStage
  | idle
  | claimed (jobId : Nat) (cursor : Option BackfillCursor)
  | unregistered (jobId : Nat)
  | boundary (jobId : Nat) (cursor : BackfillCursor)
  | page (jobId : Nat) (cursor : BackfillCursor)
  | limited (jobId : Nat) (cursor : BackfillCursor) (retryAt : String)
  | saving (jobId : Nat) (cursor : BackfillCursor) (hasMore : Bool)
  | completing (jobId : Nat)
  | failing (jobId : Nat) (detail : String)
  | callback (jobId : Nat)
  | dead

/-- The job that the runner has claimed and not returned from. -/
def RunnerStage.inHand : RunnerStage → Option Nat
  | .claimed jobId _ | .unregistered jobId | .boundary jobId _ | .page jobId _
  | .limited jobId _ _ | .saving jobId _ _ | .completing jobId | .failing jobId _ => some jobId
  | .idle | .callback _ | .dead => none

/-- The job a page of which is in work. -/
def RunnerStage.processing : RunnerStage → Option Nat
  | .page jobId _ | .saving jobId _ _ => some jobId
  | _ => none

/-- The job whose pages are done. -/
def RunnerStage.completes : RunnerStage → Option Nat
  | .completing jobId => some jobId
  | _ => none

structure Backfills (R : Type*) where
  jobs : List BackfillJob
  runners : R → RunnerStage
  /-- The jobs that `onCompleted` has run for. -/
  callbacks : List Nat

inductive RunnerMove
  | claim (locked : Nat → Bool)
  | repository (registered : Bool)
  | check
  | list (items : Nat) (hasMore : Bool)
  | rateLimited (retryAt : String)
  | wait
  | save (due : Bool)
  | finish
  | call
  | fault (detail : String)

inductive Action (R : Type*)
  | enqueue (target : String)
  | operator (jobId : Nat) (action : JobAction)
  | runner (r : R) (move : RunnerMove)

variable {R : Type*} [DecidableEq R]

/-- The runner goes on, over this table. -/
def Backfills.goes (s : Backfills R) (r : R) (stage : RunnerStage) (jobs : List BackfillJob) :
    Backfills R :=
  { s with jobs, runners := Function.update s.runners r stage }

/-- `finishBackfillIfRunning` leaves a job alone that is no longer running. -/
def finishBackfillIfRunning (jobs : List BackfillJob) (jobId : Nat) (ending : JobEnd)
    (error : Option String) : List BackfillJob :=
  (finishJobIfRunning jobs jobId ending error).getD jobs

def Backfills.runnerStep (maxConcurrent : Nat) (s : Backfills R) (r : R) :
    RunnerMove → Option (Backfills R)
  | .claim locked =>
      match s.runners r with
      | .idle =>
          (claimNextJob locked s.jobs maxConcurrent).map fun claimed =>
            let cursor := claimed.2[claimed.1]?.bind (·.progress.cursor)
            s.goes r (.claimed claimed.1 cursor) claimed.2
      | _ => none
  | .repository registered =>
      match s.runners r with
      | .claimed jobId cursor =>
          if registered then some (s.goes r (.boundary jobId (readCursor cursor)) s.jobs)
          else some (s.goes r (.unregistered jobId) s.jobs)
      | _ => none
  | .check =>
      match s.runners r with
      | .boundary jobId cursor =>
          if isJobRunning s.jobs jobId then some (s.goes r (.page jobId cursor) s.jobs)
          else some (s.goes r .idle s.jobs)
      | _ => none
  | .list items hasMore =>
      match s.runners r with
      | .page jobId cursor =>
          some (s.goes r (.saving jobId (advanceCursor cursor items) hasMore) s.jobs)
      | _ => none
  | .rateLimited retryAt =>
      match s.runners r with
      | .page jobId cursor => some (s.goes r (.limited jobId cursor retryAt) s.jobs)
      | _ => none
  | .wait =>
      match s.runners r with
      | .limited jobId cursor retryAt =>
          let progress := buildProgress cursor none (some retryAt)
          some (s.goes r (.boundary jobId cursor)
            ((updateJobProgress s.jobs jobId progress cursor).getD s.jobs))
      | _ => none
  | .save due =>
      match s.runners r with
      | .saving jobId cursor hasMore =>
          let progress := buildProgress cursor (if hasMore then none else some cursor.done) none
          let jobs :=
            if !hasMore || due then (updateJobProgress s.jobs jobId progress cursor).getD s.jobs
            else s.jobs
          some (s.goes r (if hasMore then .boundary jobId cursor else .completing jobId) jobs)
      | _ => none
  | .finish =>
      match s.runners r with
      | .completing jobId =>
          -- the outcome is `completed`, whether or not the row was moved
          some (s.goes r (.callback jobId) (finishBackfillIfRunning s.jobs jobId .completed none))
      | .failing jobId detail =>
          some (s.goes r .idle (finishBackfillIfRunning s.jobs jobId .failed (some detail)))
      | .unregistered jobId =>
          some (s.goes r .idle
            (finishBackfillIfRunning s.jobs jobId .failed (some "등록되지 않은 저장소")))
      | _ => none
  | .call =>
      match s.runners r with
      | .callback jobId =>
          some { s.goes r .idle s.jobs with callbacks := s.callbacks ++ [jobId] }
      | _ => none
  | .fault detail =>
      match s.runners r with
      | .boundary jobId _ | .page jobId _ | .limited jobId _ _ | .saving jobId _ _
      | .completing jobId => some (s.goes r (.failing jobId detail) s.jobs)
      | .claimed _ _ | .unregistered _ | .failing _ _ => some (s.goes r .dead s.jobs)
      | .idle | .callback _ | .dead => none

def Backfills.step (maxConcurrent : Nat) (s : Backfills R) : Action R → Option (Backfills R)
  | .enqueue target => (enqueueJob s.jobs target {}).map fun jobs => { s with jobs }
  | .operator jobId action => (transitionJob s.jobs jobId action).map fun jobs => { s with jobs }
  | .runner r move => s.runnerStep maxConcurrent r move

def automaton (maxConcurrent : Nat) : Automaton (Backfills R) (Action R) :=
  ⟨Backfills.step maxConcurrent⟩

/-- No job has been queued. -/
def Backfills.start : Backfills R where
  jobs := []
  runners := fun _ => .idle
  callbacks := []

/-! ### What is expected -/

variable [Fintype R]

/-- The jobs that some runner has in hand. -/
def Backfills.inHand (s : Backfills R) : Finset Nat :=
  (Finset.univ.image fun r => (s.runners r).inHand).eraseNone

/-- The jobs a page of which is in work. -/
def Backfills.processing (s : Backfills R) : Finset Nat :=
  (Finset.univ.image fun r => (s.runners r).processing).eraseNone

/-- The jobs that are running according to their rows. -/
def runningJobs (jobs : List BackfillJob) : Finset Nat :=
  (Finset.range jobs.length).filter fun jobId => findJobState jobs jobId = some .running

structure OneRunner (maxConcurrent : Nat) (s : Backfills R) : Prop where
  exclusive : ∀ r r' jobId, (s.runners r).processing = some jobId →
    (s.runners r').processing = some jobId → r = r'
  limited : s.processing.card ≤ maxConcurrent
  completed : ∀ jobId ∈ s.callbacks, findJobState s.jobs jobId = some .completed

/-- A job that has ended keeps its state. -/
def EndedStay (jobs next : List BackfillJob) : Prop :=
  ∀ jobId state, findJobState jobs jobId = some state → state.active = false →
    findJobState next jobId = some state

/-- A claim takes no job that a runner still has in hand, and when such a job is no longer running,
there is room for it too. A job whose pages are done is still running. -/
def Backfills.Undisturbed (maxConcurrent : Nat) (s : Backfills R) : Action R → Prop
  | .runner _ (.claim locked) =>
      (∀ jobId ∈ nextQueued locked s.jobs, jobId ∉ s.inHand) ∧
        (¬ s.inHand ⊆ runningJobs s.jobs → (runningJobs s.jobs ∪ s.inHand).card < maxConcurrent)
  | .runner r .finish =>
      ∀ jobId ∈ (s.runners r).completes, findJobState s.jobs jobId = some .running
  | _ => True

/-! ### What the statements keep -/

theorem EndedStay.refl (jobs : List BackfillJob) : EndedStay jobs jobs := fun _ _ found _ => found

theorem EndedStay.trans {first middle last : List BackfillJob} (earlier : EndedStay first middle)
    (later : EndedStay middle last) : EndedStay first last :=
  fun jobId state found ended => later jobId state (earlier jobId state found ended) ended

variable {jobs : List BackfillJob} {jobId maxConcurrent : Nat} {s next : Backfills R}
  {stage : RunnerStage} {r : R}

/-- A statement that changes active rows only, or no states. -/
theorem endedStay_of_onRow {statement : BackfillJob → Option BackfillJob} {next : List BackfillJob}
    (careful : ∀ row updated, statement row = some updated →
      row.state.active = true ∨ updated.state = row.state)
    (done : onRow statement jobs jobId = some next) : EndedStay jobs next := by
  obtain ⟨row, updated, found, update, rfl⟩ := onRow_eq_some done
  intro other state before ended
  obtain ⟨stored, there, rfl⟩ := Option.map_eq_some_iff.mp before
  unfold findJobState
  rw [List.getElem?_set]
  split
  next same =>
    -- the row itself: it had ended, so that its state is the same
    subst same
    cases found.symm.trans there
    have inside := (List.getElem?_eq_some_iff.mp found).1
    rcases careful row updated update with active | kept
    · rw [ended] at active
      cases active
    · simp [inside, kept]
  next => exact before

theorem endedStay_getD {next : Option (List BackfillJob)}
    (stay : ∀ jobs', next = some jobs' → EndedStay jobs jobs') :
    EndedStay jobs (next.getD jobs) := by
  cases next with
  | none => exact .refl jobs
  | some jobs' => exact stay jobs' rfl

theorem endedStay_updateJobProgress (jobs : List BackfillJob) (jobId : Nat)
    (progress : BackfillProgress) (cursor : BackfillCursor) :
    EndedStay jobs ((updateJobProgress jobs jobId progress cursor).getD jobs) := by
  refine endedStay_getD fun jobs' update => endedStay_of_onRow ?_ update
  rintro row updated same
  cases same
  exact .inr rfl

theorem endedStay_finish (jobs : List BackfillJob) (jobId : Nat) (ending : JobEnd)
    (error : Option String) : EndedStay jobs (finishBackfillIfRunning jobs jobId ending error) := by
  refine endedStay_getD fun jobs' finished => endedStay_of_onRow ?_ finished
  exact fun _ _ update => .inl (active_of_finishJobIfRunning update)

theorem endedStay_enqueueJob {next : List BackfillJob} {target : String} {columns : BackfillColumns}
    (queued : enqueueJob jobs target columns = some next) : EndedStay jobs next := by
  unfold enqueueJob at queued
  split at queued
  · cases queued
  · cases queued
    intro jobId state found _
    obtain ⟨row, there, rfl⟩ := Option.map_eq_some_iff.mp found
    have inside := (List.getElem?_eq_some_iff.mp there).1
    unfold findJobState
    rw [List.getElem?_append_left inside, there]
    rfl

/-- A job that is running can be finished. -/
theorem finishBackfillIfRunning_of_running (running : findJobState jobs jobId = some .running)
    (ending : JobEnd) (error : Option String) :
    findJobState (finishBackfillIfRunning jobs jobId ending error) jobId = some ending.state := by
  obtain ⟨row, found, state⟩ := Option.map_eq_some_iff.mp running
  have inside := (List.getElem?_eq_some_iff.mp found).1
  have finished : finishJobIfRunning jobs jobId ending error =
      some (jobs.set jobId { row with state := ending.state, error := error }) := by
    unfold finishJobIfRunning onRow
    rw [found]
    simp [JobRow.finishJobIfRunning, JobRow.updateFrom, state]
  unfold finishBackfillIfRunning findJobState
  rw [finished, Option.getD_some, List.getElem?_set_self inside]
  rfl

variable {locked : Nat → Bool} {move : RunnerMove} {action : Action R}

theorem nextQueued_of_claimNextJob {next : List BackfillJob}
    (claimed : claimNextJob locked jobs maxConcurrent = some (jobId, next)) :
    nextQueued locked jobs = some jobId := by
  unfold claimNextJob at claimed
  split at claimed
  next => cases claimed
  next =>
    split at claimed
    next => cases claimed
    next first found =>
      obtain ⟨rows, -, same⟩ := Option.map_eq_some_iff.mp claimed
      cases same
      exact found

/-! ### Counting -/

theorem mem_runningJobs : jobId ∈ runningJobs jobs ↔ findJobState jobs jobId = some .running := by
  unfold runningJobs
  rw [Finset.mem_filter, Finset.mem_range]
  refine and_iff_right_of_imp fun running => ?_
  obtain ⟨row, found, -⟩ := Option.map_eq_some_iff.mp running
  exact (List.getElem?_eq_some_iff.mp found).1

/-- The count of a claim is that of the jobs that are running. -/
theorem card_runningJobs_le (jobs : List BackfillJob) :
    (runningJobs jobs).card ≤ runningCount jobs := by
  induction jobs using List.reverseRecOn with
  | nil => exact Nat.le_refl 0
  | append_singleton before row ih =>
    have split_ : runningJobs (before ++ [row]) ⊆
        if row.state = .running then insert before.length (runningJobs before)
        else runningJobs before := by
      intro jobId inside
      have running := mem_runningJobs.mp inside
      unfold findJobState at running
      rw [List.getElem?_append] at running
      split at running
      next =>
        have old := mem_runningJobs.mpr running
        split
        · exact Finset.mem_insert_of_mem old
        · exact old
      next beyond =>
        -- the last row
        obtain ⟨last, found, state⟩ := Option.map_eq_some_iff.mp running
        have below := (List.getElem?_eq_some_iff.mp found).1
        rw [List.length_singleton] at below
        have zero : jobId - before.length = 0 := by omega
        rw [zero] at found
        cases found
        have position : jobId = before.length := by omega
        simp [state, position]
    have bound := Finset.card_le_card split_
    unfold runningCount at ih ⊢
    rw [List.countP_append]
    by_cases state : row.state = .running
    · rw [if_pos state] at bound
      have added := Finset.card_insert_le before.length (runningJobs before)
      simp only [List.countP_cons, List.countP_nil, state, decide_true, if_true]
      omega
    · rw [if_neg state] at bound
      exact Nat.le_trans bound (Nat.le_trans ih (Nat.le_add_right _ _))

theorem mem_inHand : jobId ∈ s.inHand ↔ ∃ r, (s.runners r).inHand = some jobId := by
  simp [Backfills.inHand]

theorem mem_processing : jobId ∈ s.processing ↔ ∃ r, (s.runners r).processing = some jobId := by
  simp [Backfills.processing]

theorem RunnerStage.inHand_of_processing (page : stage.processing = some jobId) :
    stage.inHand = some jobId := by
  cases stage <;> first | exact page | cases page

/-! ### What a step of a runner does -/

/-- A runner goes to a stage over a table in which ended jobs have stayed. It holds a job that it
claims, or the one it held, or none; only the end of the last page leads it to the callback. -/
structure Turn (maxConcurrent : Nat) (s : Backfills R) (r : R) (move : RunnerMove)
    (next : Backfills R) (stage : RunnerStage) : Prop where
  runners : next.runners = Function.update s.runners r stage
  stay : EndedStay s.jobs next.jobs
  hand : (∃ locked jobId, move = .claim locked ∧ stage.inHand = some jobId ∧
      claimNextJob locked s.jobs maxConcurrent = some (jobId, next.jobs)) ∨
    stage.inHand = none ∨ stage.inHand = (s.runners r).inHand
  completed : ∀ jobId, stage = .callback jobId → move = .finish ∧
    (s.runners r).completes = some jobId ∧
    next.jobs = finishBackfillIfRunning s.jobs jobId .completed none
  callbacks : ∀ jobId ∈ next.callbacks, jobId ∈ s.callbacks ∨ s.runners r = .callback jobId

-- Most steps neither take a job nor come to the callback.
theorem Turn.goes (stay : EndedStay s.jobs jobs)
    (hand : stage.inHand = none ∨ stage.inHand = (s.runners r).inHand)
    (completed : ∀ jobId, stage ≠ .callback jobId) :
    Turn maxConcurrent s r move (s.goes r stage jobs) stage where
  runners := rfl
  stay := stay
  hand := .inr hand
  completed := fun jobId same => absurd same (completed jobId)
  callbacks := fun _ inside => .inl inside

theorem finish_turn (step : s.runnerStep maxConcurrent r .finish = some next) :
    ∃ stage, Turn maxConcurrent s r .finish next stage := by
  simp only [Backfills.runnerStep] at step
  split at step
  next jobId at_ =>
    cases step
    refine ⟨.callback jobId, rfl, endedStay_finish _ _ _ _, .inr (.inl rfl), ?_,
      fun _ inside => .inl inside⟩
    intro other same
    cases same
    exact ⟨rfl, by rw [at_]; rfl, rfl⟩
  next =>
    cases step
    exact ⟨.idle, .goes (endedStay_finish _ _ _ _) (.inl rfl) (by simp)⟩
  next =>
    cases step
    exact ⟨.idle, .goes (endedStay_finish _ _ _ _) (.inl rfl) (by simp)⟩
  next => cases step

/-- The progress is written, whatever the state of the job. -/
theorem save_turn {due : Bool} (step : s.runnerStep maxConcurrent r (.save due) = some next) :
    ∃ stage, Turn maxConcurrent s r (.save due) next stage := by
  simp only [Backfills.runnerStep] at step
  split at step
  next jobId cursor hasMore at_ =>
    cases step
    have stay := endedStay_updateJobProgress s.jobs jobId
      (buildProgress cursor (if hasMore then none else some cursor.done) none) cursor
    have held : (s.runners r).inHand = some jobId := by rw [at_]; rfl
    cases hasMore with
    | true =>
      refine ⟨.boundary jobId cursor, .goes ?_ (.inr held.symm) (by simp)⟩
      cases due with
      | true => exact stay
      | false => exact .refl s.jobs
    | false => exact ⟨.completing jobId, .goes stay (.inr held.symm) (by simp)⟩
  next => cases step

theorem fault_turn {detail : String}
    (step : s.runnerStep maxConcurrent r (.fault detail) = some next) :
    ∃ stage, Turn maxConcurrent s r (.fault detail) next stage := by
  -- the runner has the job still in hand, or is gone
  have fails : ∀ jobId, (s.runners r).inHand = some jobId → ∃ stage,
      Turn maxConcurrent s r (.fault detail) (s.goes r (.failing jobId detail) s.jobs) stage := by
    intro jobId held
    exact ⟨.failing jobId detail, .goes (.refl s.jobs) (.inr held.symm) (by simp)⟩
  have dies : ∃ stage,
      Turn maxConcurrent s r (.fault detail) (s.goes r .dead s.jobs) stage :=
    ⟨.dead, .goes (.refl s.jobs) (.inl rfl) (by simp)⟩
  simp only [Backfills.runnerStep] at step
  cases at_ : s.runners r with
  | boundary jobId cursor => rw [at_] at step; cases step; exact fails jobId (by rw [at_]; rfl)
  | page jobId cursor => rw [at_] at step; cases step; exact fails jobId (by rw [at_]; rfl)
  | limited jobId cursor retryAt =>
    rw [at_] at step; cases step; exact fails jobId (by rw [at_]; rfl)
  | saving jobId cursor hasMore =>
    rw [at_] at step; cases step; exact fails jobId (by rw [at_]; rfl)
  | completing jobId => rw [at_] at step; cases step; exact fails jobId (by rw [at_]; rfl)
  | claimed jobId cursor => rw [at_] at step; cases step; exact dies
  | unregistered jobId => rw [at_] at step; cases step; exact dies
  | failing jobId detail => rw [at_] at step; cases step; exact dies
  | idle => rw [at_] at step; cases step
  | callback jobId => rw [at_] at step; cases step
  | dead => rw [at_] at step; cases step

theorem runnerStep_turn (step : s.runnerStep maxConcurrent r move = some next) :
    ∃ stage, Turn maxConcurrent s r move next stage := by
  cases move <;> simp only [Backfills.runnerStep] at step
  case finish => exact finish_turn step
  case save due => exact save_turn step
  case fault detail => exact fault_turn step
  case claim locked =>
    split at step
    next =>
      obtain ⟨⟨jobId, jobs⟩, claimed, rfl⟩ := Option.map_eq_some_iff.mp step
      have stay : EndedStay s.jobs jobs :=
        endedStay_of_onRow (fun _ _ claim => .inl (active_of_claim claim))
          (claimNextJob_eq_some claimed).2
      exact ⟨.claimed jobId (jobs[jobId]?.bind (·.progress.cursor)), rfl, stay,
        .inl ⟨locked, jobId, rfl, rfl, claimed⟩, fun _ same => (nomatch same),
        fun _ inside => .inl inside⟩
    next => cases step
  case repository registered =>
    split at step
    next jobId cursor at_ =>
      have held : (s.runners r).inHand = some jobId := by rw [at_]; rfl
      cases registered with
      | true =>
        cases step
        exact ⟨.boundary jobId (readCursor cursor), .goes (.refl s.jobs) (.inr held.symm) (by simp)⟩
      | false =>
        cases step
        exact ⟨.unregistered jobId, .goes (.refl s.jobs) (.inr held.symm) (by simp)⟩
    next => cases step
  case check =>
    split at step
    next jobId cursor at_ =>
      have held : (s.runners r).inHand = some jobId := by rw [at_]; rfl
      split at step
      next =>
        cases step
        exact ⟨.page jobId cursor, .goes (.refl s.jobs) (.inr held.symm) (by simp)⟩
      next =>
        cases step
        exact ⟨.idle, .goes (.refl s.jobs) (.inl rfl) (by simp)⟩
    next => cases step
  case list items hasMore =>
    split at step
    next jobId cursor at_ =>
      have held : (s.runners r).inHand = some jobId := by rw [at_]; rfl
      cases step
      exact ⟨.saving jobId (advanceCursor cursor items) hasMore,
        .goes (.refl s.jobs) (.inr held.symm) (by simp)⟩
    next => cases step
  case rateLimited retryAt =>
    split at step
    next jobId cursor at_ =>
      have held : (s.runners r).inHand = some jobId := by rw [at_]; rfl
      cases step
      exact ⟨.limited jobId cursor retryAt, .goes (.refl s.jobs) (.inr held.symm) (by simp)⟩
    next => cases step
  case wait =>
    split at step
    next jobId cursor retryAt at_ =>
      have held : (s.runners r).inHand = some jobId := by rw [at_]; rfl
      have stay := endedStay_updateJobProgress s.jobs jobId
        (buildProgress cursor none (some retryAt)) cursor
      cases step
      exact ⟨.boundary jobId cursor, .goes stay (.inr held.symm) (by simp)⟩
    next => cases step
  case call =>
    split at step
    next jobId at_ =>
      cases step
      refine ⟨.idle, rfl, .refl s.jobs, .inr (.inl rfl), fun _ same => (nomatch same), ?_⟩
      intro other inside
      rcases List.mem_append.mp inside with old | new
      · exact .inl old
      · exact .inr (by rw [at_, List.mem_singleton.mp new])
    next => cases step

theorem endedStay_step (step : s.step maxConcurrent action = some next) :
    EndedStay s.jobs next.jobs := by
  cases action with
  | enqueue target =>
    obtain ⟨jobs, queued, rfl⟩ := Option.map_eq_some_iff.mp step
    exact endedStay_enqueueJob queued
  | operator jobId action =>
    obtain ⟨jobs, transition, rfl⟩ := Option.map_eq_some_iff.mp step
    exact endedStay_of_onRow (fun _ _ update => .inl (active_of_transitionJob update)) transition
  | runner r move =>
    obtain ⟨stage, turn⟩ := runnerStep_turn step
    exact turn.stay

/-! ### The invariant -/

structure Inv (maxConcurrent : Nat) (s : Backfills R) : Prop where
  exclusive : ∀ r r' jobId, (s.runners r).inHand = some jobId →
    (s.runners r').inHand = some jobId → r = r'
  limited : s.inHand.card ≤ maxConcurrent
  calling : ∀ r jobId, s.runners r = .callback jobId → findJobState s.jobs jobId = some .completed
  called : ∀ jobId ∈ s.callbacks, findJobState s.jobs jobId = some .completed

theorem start_inv (maxConcurrent : Nat) : Inv maxConcurrent (Backfills.start : Backfills R) where
  exclusive := fun _ _ _ held => nomatch held
  limited := by
    have empty : (Backfills.start : Backfills R).inHand = ∅ := by
      rw [Finset.eq_empty_iff_forall_notMem]
      intro jobId inside
      obtain ⟨r, held⟩ := mem_inHand.mp inside
      cases held
    rw [empty]
    exact Nat.zero_le _
  calling := fun _ _ at_ => nomatch at_
  called := List.forall_mem_nil _

theorem Inv.oneRunner (inv : Inv maxConcurrent s) :
    OneRunner maxConcurrent s where
  exclusive := fun r r' jobId first second =>
    inv.exclusive r r' jobId (RunnerStage.inHand_of_processing first)
      (RunnerStage.inHand_of_processing second)
  limited := by
    refine Nat.le_trans (Finset.card_le_card ?_) inv.limited
    intro jobId inside
    obtain ⟨r, page⟩ := mem_processing.mp inside
    exact mem_inHand.mpr ⟨r, RunnerStage.inHand_of_processing page⟩
  completed := inv.called

/-- The table changes, and no runner moves. -/
theorem Inv.table (inv : Inv maxConcurrent s) (stay : EndedStay s.jobs jobs) :
    Inv maxConcurrent { s with jobs } where
  exclusive := inv.exclusive
  limited := inv.limited
  calling := fun r jobId at_ => stay jobId _ (inv.calling r jobId at_) rfl
  called := fun jobId inside => stay jobId _ (inv.called jobId inside) rfl

-- What a runner holds after its turn: the job that it has taken, or what was held before.
theorem inHand_turn {runners : R → RunnerStage} {r' : R}
    (held : (Function.update runners r stage r').inHand = some jobId) :
    r' = r ∧ stage.inHand = some jobId ∨ (runners r').inHand = some jobId := by
  by_cases own : r' = r
  · rw [own, Function.update_self] at held
    exact .inl ⟨own, held⟩
  · rw [Function.update_of_ne own] at held
    exact .inr held

/-- The limit and the owners, when the runner takes no job. -/
theorem hands_of_same (inv : Inv maxConcurrent s)
    (runners : next.runners = Function.update s.runners r stage)
    (same : stage.inHand = none ∨ stage.inHand = (s.runners r).inHand) :
    (∀ r₁ r₂ jobId, (next.runners r₁).inHand = some jobId →
      (next.runners r₂).inHand = some jobId → r₁ = r₂) ∧ next.inHand.card ≤ maxConcurrent := by
  have held : ∀ r' jobId, (next.runners r').inHand = some jobId →
      (s.runners r').inHand = some jobId := by
    intro r' jobId inside
    rw [runners] at inside
    rcases inHand_turn inside with ⟨own, taken⟩ | old
    · rcases same with nothing | same
      · rw [nothing] at taken
        cases taken
      · rw [own]
        exact same.symm.trans taken
    · exact old
  constructor
  · intro r₁ r₂ jobId first second
    exact inv.exclusive r₁ r₂ jobId (held r₁ jobId first) (held r₂ jobId second)
  · refine Nat.le_trans (Finset.card_le_card ?_) inv.limited
    intro jobId inside
    obtain ⟨r', there⟩ := mem_inHand.mp inside
    exact mem_inHand.mpr ⟨r', held r' jobId there⟩

/-- The same, when it takes a job that nobody has in hand, while there is room for it. -/
theorem hands_of_take (inv : Inv maxConcurrent s)
    (runners : next.runners = Function.update s.runners r stage) (takes : stage.inHand = some jobId)
    (apart : jobId ∉ s.inHand) (room : s.inHand.card < maxConcurrent) :
    (∀ r₁ r₂ jobId, (next.runners r₁).inHand = some jobId →
      (next.runners r₂).inHand = some jobId → r₁ = r₂) ∧ next.inHand.card ≤ maxConcurrent := by
  have nobody : ∀ r', (s.runners r').inHand ≠ some jobId :=
    fun r' held => apart (mem_inHand.mpr ⟨r', held⟩)
  have held : ∀ r' other, (next.runners r').inHand = some other →
      r' = r ∧ other = jobId ∨ (s.runners r').inHand = some other := by
    intro r' other inside
    rw [runners] at inside
    rcases inHand_turn inside with ⟨own, taken⟩ | old
    · exact .inl ⟨own, Option.some.inj (taken.symm.trans takes)⟩
    · exact .inr old
  constructor
  · intro r₁ r₂ other first second
    rcases held r₁ other first with ⟨one, same⟩ | first
    · rcases held r₂ other second with ⟨two, -⟩ | second
      · exact one.trans two.symm
      · exact absurd (same ▸ second) (nobody r₂)
    · rcases held r₂ other second with ⟨-, same⟩ | second
      · exact absurd (same ▸ first) (nobody r₁)
      · exact inv.exclusive r₁ r₂ other first second
  · have grows : next.inHand ⊆ insert jobId s.inHand := by
      intro other inside
      obtain ⟨r', there⟩ := mem_inHand.mp inside
      rcases held r' other there with ⟨-, same⟩ | old
      · exact same ▸ Finset.mem_insert_self jobId s.inHand
      · exact Finset.mem_insert_of_mem (mem_inHand.mpr ⟨r', old⟩)
    have bound := Finset.card_le_card grows
    have added := Finset.card_insert_le jobId s.inHand
    omega

/-- An undisturbed claim finds room for the jobs that are still in hand. -/
theorem room_of_undisturbed (undisturbed : s.Undisturbed maxConcurrent (.runner r (.claim locked)))
    (claimed : claimNextJob locked s.jobs maxConcurrent = some (jobId, jobs)) :
    jobId ∉ s.inHand ∧ s.inHand.card < maxConcurrent := by
  obtain ⟨free, room⟩ := undisturbed
  refine ⟨free jobId (nextQueued_of_claimNextJob claimed), ?_⟩
  -- the count of the claim covers the jobs in hand, unless one of them is no longer running
  by_cases running : s.inHand ⊆ runningJobs s.jobs
  · have below := (claimNextJob_eq_some claimed).1
    have counted := Finset.card_le_card running
    have count := card_runningJobs_le s.jobs
    omega
  · exact Nat.lt_of_le_of_lt (Finset.card_le_card Finset.subset_union_right) (room running)

theorem runnerStep_inv (inv : Inv maxConcurrent s)
    (undisturbed : s.Undisturbed maxConcurrent (.runner r move))
    (step : s.runnerStep maxConcurrent r move = some next) : Inv maxConcurrent next := by
  obtain ⟨stage, turn⟩ := runnerStep_turn step
  have hands : (∀ r₁ r₂ jobId, (next.runners r₁).inHand = some jobId →
      (next.runners r₂).inHand = some jobId → r₁ = r₂) ∧ next.inHand.card ≤ maxConcurrent := by
    rcases turn.hand with ⟨locked, jobId, rfl, takes, claimed⟩ | same
    · obtain ⟨apart, room⟩ := room_of_undisturbed undisturbed claimed
      exact hands_of_take inv turn.runners takes apart room
    · exact hands_of_same inv turn.runners same
  refine ⟨hands.1, hands.2, ?_, ?_⟩
  · intro r' jobId at_
    rw [turn.runners] at at_
    by_cases own : r' = r
    · rw [own, Function.update_self] at at_
      obtain ⟨rfl, completes, jobs⟩ := turn.completed jobId at_
      rw [jobs]
      exact finishBackfillIfRunning_of_running (undisturbed jobId completes) .completed none
    · rw [Function.update_of_ne own] at at_
      exact turn.stay jobId _ (inv.calling r' jobId at_) rfl
  · intro jobId inside
    rcases turn.callbacks jobId inside with old | at_
    · exact turn.stay jobId _ (inv.called jobId old) rfl
    · exact turn.stay jobId _ (inv.calling r jobId at_) rfl

theorem step_inv (inv : Inv maxConcurrent s) (undisturbed : s.Undisturbed maxConcurrent action)
    (step : s.step maxConcurrent action = some next) : Inv maxConcurrent next := by
  have stay := endedStay_step step
  cases action with
  | enqueue target =>
    obtain ⟨jobs, -, rfl⟩ := Option.map_eq_some_iff.mp step
    exact inv.table stay
  | operator jobId action =>
    obtain ⟨jobs, -, rfl⟩ := Option.map_eq_some_iff.mp step
    exact inv.table stay
  | runner r move => exact runnerStep_inv inv undisturbed step

/-! ### Every run -/

/-- In the runs whose claims and completions are undisturbed, a job has one runner. -/
theorem job_has_one_runner (maxConcurrent : Nat) (actions : List (Action R))
    (undisturbed : ∀ turn ∈ (automaton maxConcurrent).taken actions Backfills.start,
      turn.1.Undisturbed maxConcurrent turn.2) :
    (((automaton maxConcurrent).visited actions Backfills.start).Pairwise fun earlier later =>
        EndedStay earlier.jobs later.jobs) ∧
      ∀ s ∈ (automaton maxConcurrent).visited actions Backfills.start,
        OneRunner maxConcurrent s := by
  constructor
  · have trans : ∀ first middle last : Backfills R, EndedStay first.jobs middle.jobs →
        EndedStay middle.jobs last.jobs → EndedStay first.jobs last.jobs :=
      fun _ _ _ earlier later => earlier.trans later
    exact Automaton.pairwise_visited trans (fun _ _ _ step => endedStay_step step) actions _
  · have step : ∀ (s : Backfills R) action next, Inv maxConcurrent s →
        s.Undisturbed maxConcurrent action →
        (automaton maxConcurrent).step s action = some next → Inv maxConcurrent next :=
      fun _ _ _ inv undisturbed step => step_inv inv undisturbed step
    intro s reached
    have inv := Automaton.visited_of_taken step (start_inv maxConcurrent) undisturbed s reached
    exact inv.oneRunner

/-! ### A run of each kind -/

instance decidableUndisturbed (maxConcurrent : Nat) (s : Backfills R) :
    (action : Action R) → Decidable (s.Undisturbed maxConcurrent action)
  | .runner _ (.claim locked) =>
      inferInstanceAs (Decidable
        ((∀ jobId ∈ nextQueued locked s.jobs, jobId ∉ s.inHand) ∧
          (¬ s.inHand ⊆ runningJobs s.jobs →
            (runningJobs s.jobs ∪ s.inHand).card < maxConcurrent)))
  | .runner r .finish =>
      inferInstanceAs (Decidable
        (∀ jobId ∈ (s.runners r).completes, findJobState s.jobs jobId = some .running))
  | .runner _ (.repository _) | .runner _ .check | .runner _ (.list _ _)
  | .runner _ (.rateLimited _) | .runner _ .wait | .runner _ (.save _) | .runner _ .call
  | .runner _ (.fault _) | .enqueue _ | .operator _ _ => .isTrue trivial

/-- A runner claims a job and comes to its first page. -/
def startPage (r : Bool) : List (Action Bool) :=
  [.runner r (.claim fun _ => false), .runner r (.repository true), .runner r .check]

def onePage : List (Action Bool) :=
  [.enqueue "acme/app"] ++ startPage true ++
    [.runner true (.list 2 false), .runner true (.save false), .runner true .finish,
      .runner true .call]

/-- A job of one page is completed, and its callback runs. -/
theorem job_has_one_runner_page :
    ((automaton 3).visited onePage Backfills.start).any (fun s => s.callbacks = [0]) = true ∧
    (((automaton 3).visited onePage Backfills.start).Pairwise fun earlier later =>
        EndedStay earlier.jobs later.jobs) ∧
      ∀ s ∈ (automaton 3).visited onePage Backfills.start, OneRunner 3 s :=
  ⟨by decide, job_has_one_runner 3 onePage (by decide)⟩

def pausedPage : List (Action Bool) :=
  [.enqueue "acme/app"] ++ startPage true ++ [.operator 0 .pause, .operator 0 .resume] ++
    startPage false

/-- A job that is paused and resumed during a page is claimed by a second runner. -/
theorem resumed_job_has_two_runners :
    ¬ ∀ s ∈ (automaton 3).visited pausedPage Backfills.start, OneRunner 3 s := by
  intro one
  have both : ((automaton 3).visited pausedPage Backfills.start).any (fun s =>
      (s.runners true).processing = some 0 ∧ (s.runners false).processing = some 0) = true := by
    decide
  obtain ⟨s, reached, pages⟩ := List.any_eq_true.mp both
  obtain ⟨first, second⟩ := of_decide_eq_true pages
  cases (one s reached).exclusive true false 0 first second

end PrSearch.Jobs.Backfill
