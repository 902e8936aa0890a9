import PrSearch.Lib.Automaton
import PrSearch.Reindex.Fence

/-! # The jobs of all aliases

Calls of `enqueueReindex`, claims, the operator, the runners and the fenced writes work on one table of
jobs, one statement at a time. A write reads which indices are shadows, for every alias, and charges
the failures of the shadows to the active job that it finds when its callback has returned.

For every failure the state says which job it was raised for, the one whose shadow was written, and
which row the statement has changed.
-/
namespace PrSearch.Reindex.Charges

open Jobs

inductive EnqueueReindexOutcome
  | queued (jobId : Nat) (sourceIndex targetIndex : String)
  | conflict (aliasName : String)
  | busy (aliasName : String)
  | invalidAlias (value : String)

/-- Where a call of `enqueueReindex` is. An insert that breaks `job_active_uk` throws. -/
inductive EnqueueStage
  | idle
  | free (aliasName : String)
  | resolved (aliasName sourceIndex targetIndex : String)
  | done (outcome : EnqueueReindexOutcome)
  | thrown

/-- The checks of `enqueueReindex`. -/
def enqueueCheck (isAlias : String → Bool) (jobs : List ReindexJob) (aliasName : String) :
    EnqueueStage :=
  if !isAlias aliasName then .done (.invalidAlias aliasName)
  else
    match findActiveReindexRow jobs with
    | none => .free aliasName
    | some (_, existing) =>
        if existing.target = aliasName then .done (.conflict aliasName)
        else .done (.busy existing.target)

/-- The progress that a job is inserted with. -/
def initialProgress (sourceIndex targetIndex : String) : ReindexProgress where
  phase := .prepare
  sourceIndex := sourceIndex
  targetIndex := targetIndex

/-- The job whose target is the shadow of an alias. -/
def dualWriteJob (jobs : List ReindexJob) (aliasName : String) : Option Nat :=
  ((jobs.zipIdx.filter fun entry => dualWrites entry.1 && entry.1.target = aliasName).getLast?).map
    Prod.snd

/-- A write in `withReindexWrite`, with the shadows of all aliases and the jobs they belong to. -/
structure SharedWrite (S : Type*) where
  stage : FenceStage := .outside
  shadows : String → Option String := fun _ => none
  owner : String → Option Nat := fun _ => none
  failures : List ShadowFailure := []
  pendings : List (ShadowPending S) := []

structure Charge where
  failure : ShadowFailure
  raisedFor : Nat
  charged : Option Nat
  deriving DecidableEq

variable {W E S : Type*}

/-- What becomes of the failures of a write. -/
def SharedWrite.charges (write : SharedWrite S) (charged : Option Nat)
    (failures : List ShadowFailure) : List Charge :=
  failures.filterMap fun failure =>
    (write.owner failure.aliasName).map fun raisedFor => ⟨failure, raisedFor, charged⟩

/-- The failures that a write would charge. -/
def SharedWrite.outstanding (write : SharedWrite S) : List ShadowFailure :=
  match write.stage with
  | .failing _ failures => failures
  | _ => write.failures

structure Board (W E S : Type*) where
  jobs : List ReindexJob
  calls : E → EnqueueStage
  writes : W → SharedWrite S
  charges : List Charge

inductive EnqueueMove
  | begin_ (aliasName : String)
  | resolve (sourceIndex targetIndex : String)
  | insert

inductive WriteMove (S : Type*)
  | lock
  | fail (aliasName operation reason : String)
  | pend (aliasName : String) (source : S) (linkId : String)
  | return_
  | throw
  | proceed
  | fault

inductive BoardAction (W E S : Type*)
  | enqueue (call : E) (move : EnqueueMove)
  | claim (locked : Nat → Bool)
  | operator (jobId : Nat) (action : JobAction)
  | finish (jobId : Nat) (ending : JobEnd) (error : Option String)
  | advance (jobId : Nat) (phase : ReindexPhase)
  | switched (jobId : Nat) (at_ : String)
  | write (writer : W) (move : WriteMove S)

/-- `REINDEX_MAX_CONCURRENT` -/
def reindexMaxConcurrent : Nat := 1

variable [DecidableEq W] [DecidableEq E]

def Board.enqueueStep (isAlias : String → Bool) (s : Board W E S) (e : E) :
    EnqueueMove → Option (Board W E S)
  | .begin_ aliasName =>
      match s.calls e with
      | .free _ | .resolved _ _ _ => none
      | _ =>
          some { s with calls := Function.update s.calls e (enqueueCheck isAlias s.jobs aliasName) }
  | .resolve sourceIndex targetIndex =>
      match s.calls e with
      | .free aliasName =>
          let stage := .resolved aliasName sourceIndex targetIndex
          some { s with calls := Function.update s.calls e stage }
      | _ => none
  | .insert =>
      match s.calls e with
      | .resolved aliasName sourceIndex targetIndex =>
          match enqueueJob s.jobs aliasName (initialProgress sourceIndex targetIndex) with
          | none => some { s with calls := Function.update s.calls e .thrown }
          | some jobs =>
              let outcome := .queued s.jobs.length sourceIndex targetIndex
              some { s with jobs, calls := Function.update s.calls e (.done outcome) }
      | _ => none

def Board.writer (s : Board W E S) (w : W) (write : SharedWrite S) : Board W E S :=
  { s with writes := Function.update s.writes w write }

/-- The write leaves the fence, with its failures charged to this job. -/
def Board.leave (s : Board W E S) (w : W) (charged : Option Nat) : Board W E S :=
  { s with
    writes := Function.update s.writes w {}
    charges := s.charges ++ (s.writes w).charges charged (s.writes w).outstanding }

def Board.writeProceed (s : Board W E S) (w : W) : Option (Board W E S) :=
  let write := s.writes w
  match write.stage with
  | .outside | .writing => none
  | .locked =>
      some (s.writer w
        { stage := .writing, shadows := findDualWriteShadows s.jobs, owner := dualWriteJob s.jobs })
  | .finding => some (s.writer w { write with stage := .pending (findActiveReindexRow s.jobs) })
  | .pending active =>
      let failures := write.failures ++ promotedPendings active write.pendings
      some (s.writer w { write with stage := .failing active failures })
  | .failing none _ => some (s.leave w none)
  | .failing (some (jobId, _)) failures =>
      match onRow (recordShadowFailures failures) s.jobs jobId with
      | none => some (s.leave w none)
      | some jobs => some ({ s with jobs }.leave w (some jobId))

def Board.writeStep (s : Board W E S) (w : W) : WriteMove S → Option (Board W E S)
  | .lock =>
      match (s.writes w).stage with
      | .outside => some (s.writer w { stage := .locked })
      | _ => none
  | .fail aliasName operation reason =>
      match (s.writes w).stage, (s.writes w).shadows aliasName with
      | .writing, some index =>
          some (s.writer w
            { s.writes w with
              failures := (s.writes w).failures ++ [⟨aliasName, index, operation, reason⟩] })
      | _, _ => none
  | .pend aliasName source linkId =>
      match (s.writes w).stage, (s.writes w).shadows aliasName with
      | .writing, some index =>
          some (s.writer w
            { s.writes w with
              pendings := (s.writes w).pendings ++ [⟨aliasName, index, source, linkId⟩] })
      | _, _ => none
  | .return_ =>
      match (s.writes w).stage with
      | .writing =>
          if (s.writes w).failures = [] ∧ (s.writes w).pendings.isEmpty then some (s.leave w none)
          else some (s.writer w { s.writes w with stage := .finding })
      | _ => none
  | .throw =>
      match (s.writes w).stage with
      | .writing => some (s.leave w none)
      | _ => none
  | .proceed => s.writeProceed w
  | .fault =>
      match (s.writes w).stage with
      | .outside | .writing => none
      | _ => some (s.leave w none)

def Board.step (isAlias : String → Bool) (s : Board W E S) :
    BoardAction W E S → Option (Board W E S)
  | .enqueue e move => s.enqueueStep isAlias e move
  | .claim locked =>
      (claimNextJob locked s.jobs reindexMaxConcurrent).map fun claimed =>
        { s with jobs := claimed.2 }
  | .operator jobId action => (transitionJob s.jobs jobId action).map fun jobs => { s with jobs }
  | .finish jobId ending error =>
      (finishJobIfRunning s.jobs jobId ending error).map fun jobs => { s with jobs }
  | .advance jobId phase =>
      (onRow (fun row => some (patchPhase phase row)) s.jobs jobId).map fun jobs => { s with jobs }
  | .switched jobId at_ =>
      (onRow (fun row => some (patchSwitched at_ row)) s.jobs jobId).map fun jobs => { s with jobs }
  | .write w move => s.writeStep w move

def automaton (isAlias : String → Bool) : Automaton (Board W E S) (BoardAction W E S) :=
  ⟨Board.step isAlias⟩

/-- No job, no call and no write. -/
def Board.start : Board W E S where
  jobs := []
  calls := fun _ => .idle
  writes := fun _ => {}
  charges := []

/-! ### What is expected -/

def ActiveOnce (jobs : List ReindexJob) : Prop :=
  ∀ i j, ActiveAt jobs i → ActiveAt jobs j → i = j

structure ChargedRight (s : Board W E S) : Prop where
  once : ActiveOnce s.jobs
  charged : ∀ charge ∈ s.charges, charge.charged = some charge.raisedFor

/-- The insert finds no active job of another alias. -/
def EnqueueStage.InsertsAlone (jobs : List ReindexJob) : EnqueueStage → Prop
  | .resolved aliasName _ _ => ∀ row ∈ jobs, row.state.active = true → row.target = aliasName
  | .idle | .free _ | .done _ | .thrown => True

/-- The jobs of the failures that are about to be recorded are running. -/
def SharedWrite.ChargesRunning (jobs : List ReindexJob) (write : SharedWrite S) : Prop :=
  ∀ failure ∈ write.outstanding, ∀ jobId ∈ write.owner failure.aliasName,
    findJobState jobs jobId = some .running

/-- The step neither inserts a job beside an active one of another alias, nor drops a failure, nor
records one for a job that is no longer running. -/
def Board.Orderly (s : Board W E S) : BoardAction W E S → Prop
  | .enqueue e .insert => (s.calls e).InsertsAlone s.jobs
  | .write w .throw | .write w .fault => (s.writes w).outstanding = []
  | .write w .proceed => (s.writes w).stage.hasFound = true → (s.writes w).ChargesRunning s.jobs
  | _ => True

/-! ### Keeping one active job -/

/-- No job becomes active. -/
def NoneAwakes (jobs next : List ReindexJob) : Prop :=
  jobs.length ≤ next.length ∧ ∀ jobId < jobs.length, ActiveAt next jobId → ActiveAt jobs jobId

variable {jobs : List ReindexJob} {jobId : Nat} {write : SharedWrite S} {s next : Board W E S}
  {w : W} {isAlias : String → Bool}

variable {statement : ReindexJob → Option ReindexJob} {charged : Option Nat}
  {failures : List ShadowFailure} {row : ReindexJob}

theorem noneAwakes_of_onRow {next : List ReindexJob}
    (keeps : ∀ row updated, statement row = some updated → updated.state.active = true →
      row.state.active = true) (done : onRow statement jobs jobId = some next) :
    NoneAwakes jobs next :=
  ⟨Nat.le_of_eq (length_onRow done).symm, fun _ _ active => active.of_onRow keeps done⟩

theorem activeOnce_of_onRow {next : List ReindexJob}
    (keeps : ∀ row updated, statement row = some updated → updated.state.active = true →
      row.state.active = true) (done : onRow statement jobs jobId = some next)
    (once : ActiveOnce jobs) : ActiveOnce next :=
  fun i j first second => once i j (first.of_onRow keeps done) (second.of_onRow keeps done)

/-- The write knows the job that is active, if its own one still is. -/
structure SharedWrite.Ok (jobs : List ReindexJob) (write : SharedWrite S) : Prop where
  owner : ∀ aliasName jobId, write.owner aliasName = some jobId → jobId < jobs.length
  active : ∀ active, (write.stage = .pending active ∨ ∃ failures, write.stage = .failing active failures) →
    ∀ aliasName jobId, write.owner aliasName = some jobId → ActiveAt jobs jobId →
      ∃ row, active = some (jobId, row)

theorem SharedWrite.Ok.of_noneAwakes {next : List ReindexJob} (ok : write.Ok jobs)
    (awakes : NoneAwakes jobs next) :
    write.Ok next where
  owner := fun aliasName jobId own => Nat.lt_of_lt_of_le (ok.owner aliasName jobId own) awakes.1
  active := by
    intro active stage aliasName jobId own alive
    have before := awakes.2 jobId (ok.owner aliasName jobId own) alive
    exact ok.active active stage aliasName jobId own before

theorem SharedWrite.Ok.outside (jobs : List ReindexJob) : ({} : SharedWrite S).Ok jobs where
  owner := fun _ _ own => nomatch own
  active := fun _ _ _ _ own => nomatch own

structure Inv (s : Board W E S) : Prop where
  once : ActiveOnce s.jobs
  writes : ∀ w, (s.writes w).Ok s.jobs
  charged : ∀ charge ∈ s.charges, charge.charged = some charge.raisedFor

theorem start_inv : Inv (Board.start : Board W E S) where
  once := by
    rintro i j ⟨row, found, -⟩
    cases found
  writes := fun _ => SharedWrite.Ok.outside []
  charged := List.forall_mem_nil _

/-- A statement that does not make a job active, and nothing else. -/
theorem Inv.update (inv : Inv s)
    (keeps : ∀ row updated, statement row = some updated → updated.state.active = true →
      row.state.active = true) (done : onRow statement s.jobs jobId = some jobs) :
    Inv { s with jobs } where
  once := activeOnce_of_onRow keeps done inv.once
  writes := fun w => (inv.writes w).of_noneAwakes (noneAwakes_of_onRow keeps done)
  charged := inv.charged

theorem writes_update {writes : W → SharedWrite S} (ok : write.Ok jobs)
    (others : ∀ w', (writes w').Ok jobs) (w' : W) :
    (Function.update writes w write w').Ok jobs := by
  by_cases own : w' = w
  · subst own
    rw [Function.update_self]
    exact ok
  · rw [Function.update_of_ne own]
    exact others w'

theorem Inv.writer (inv : Inv s) (ok : write.Ok s.jobs) :
    Inv (s.writer w write) where
  once := inv.once
  writes := writes_update ok inv.writes
  charged := inv.charged

theorem mem_charges {charge : Charge} (inside : charge ∈ write.charges charged failures) :
    charge.failure ∈ failures ∧ write.owner charge.failure.aliasName = some charge.raisedFor ∧
      charge.charged = charged := by
  obtain ⟨failure, member, mapped⟩ := List.mem_filterMap.mp inside
  obtain ⟨raisedFor, own, rfl⟩ := Option.map_eq_some_iff.mp mapped
  exact ⟨member, own, rfl⟩

/-- A write leaves with all its failures charged to the jobs that they were raised for. -/
theorem Inv.leave (inv : Inv s)
    (right : ∀ failure ∈ (s.writes w).outstanding, ∀ jobId,
      (s.writes w).owner failure.aliasName = some jobId → charged = some jobId) :
    Inv (s.leave w charged) where
  once := inv.once
  writes := writes_update (SharedWrite.Ok.outside s.jobs) inv.writes
  charged := by
    intro charge inside
    rcases List.mem_append.mp inside with old | new
    · exact inv.charged charge old
    · obtain ⟨member, own, same⟩ := mem_charges new
      rw [same]
      exact right charge.failure member charge.raisedFor own

theorem Inv.leave_of_nil (inv : Inv s) (charged : Option Nat)
    (none_ : (s.writes w).outstanding = []) : Inv (s.leave w charged) := by
  refine inv.leave ?_
  rw [none_]
  exact List.forall_mem_nil _

/-! ### The steps -/

theorem activeAt_append (active : ActiveAt (jobs ++ [row]) jobId) :
    ActiveAt jobs jobId ∨ jobId = jobs.length := by
  obtain ⟨found, there, state⟩ := active
  rw [List.getElem?_append] at there
  split at there
  next => exact .inl ⟨found, there, state⟩
  next beyond =>
    have inside := (List.getElem?_eq_some_iff.mp there).1
    rw [List.length_singleton] at inside
    exact .inr (by omega)

theorem enqueue_inv {e : E} {move : EnqueueMove} (inv : Inv s)
    (orderly : s.Orderly (.enqueue e move)) (step : s.enqueueStep isAlias e move = some next) :
    Inv next := by
  cases move with
  | begin_ aliasName =>
    simp only [Board.enqueueStep] at step
    split at step
    · cases step
    · cases step
    · cases step
      exact ⟨inv.once, inv.writes, inv.charged⟩
  | resolve sourceIndex targetIndex =>
    simp only [Board.enqueueStep] at step
    split at step
    · cases step
      exact ⟨inv.once, inv.writes, inv.charged⟩
    · cases step
  | insert =>
    simp only [Board.enqueueStep] at step
    split at step
    next aliasName sourceIndex targetIndex resolved =>
      split at step
      next =>
        cases step
        exact ⟨inv.once, inv.writes, inv.charged⟩
      next jobs inserted =>
        cases step
        simp only [Board.Orderly, resolved, EnqueueStage.InsertsAlone] at orderly
        unfold enqueueJob at inserted
        split at inserted
        next => cases inserted
        next absent =>
          cases inserted
          -- the constraint leaves no active job of this alias, and there is none of another
          have inactive : ∀ jobId, ¬ ActiveAt s.jobs jobId := by
            rintro jobId ⟨row, found, active⟩
            have member := List.mem_of_getElem? found
            refine absent (List.any_eq_true.mpr ⟨row, member, ?_⟩)
            simp [orderly row member active, active]
          refine ⟨?_, ?_, inv.charged⟩
          · intro i j first second
            rcases activeAt_append first with old | rfl
            · exact absurd old (inactive i)
            · rcases activeAt_append second with old | rfl
              · exact absurd old (inactive j)
              · rfl
          · intro w
            refine (inv.writes w).of_noneAwakes ⟨by simp, ?_⟩
            intro jobId below active
            rcases activeAt_append active with old | rfl
            · exact old
            · omega
    next => cases step

theorem dualWriteJob_lt {aliasName : String} (own : dualWriteJob jobs aliasName = some jobId) :
    jobId < jobs.length := by
  obtain ⟨entry, last, rfl⟩ := Option.map_eq_some_iff.mp own
  have member := (List.mem_filter.mp (List.mem_of_getLast? last)).1
  exact (List.getElem?_eq_some_iff.mp (List.mem_zipIdx_iff_getElem?.mp member)).1

/-- The only active job is the one that is found. -/
theorem findActiveReindexRow_of_activeAt (once : ActiveOnce jobs) (active : ActiveAt jobs jobId) :
    ∃ row, findActiveReindexRow jobs = some (jobId, row) := by
  cases found : findActiveReindexRow jobs with
  | none => exact absurd active (not_activeAt_of_findActiveReindexRow found jobId)
  | some first =>
    obtain ⟨there, state⟩ := mem_of_findActiveReindexRow found
    have same := once first.1 jobId ⟨first.2, there, state⟩ active
    exact ⟨first.2, by rw [← same]⟩

theorem find_inv (inv : Inv s) (w : W) :
    Inv (s.writer w { s.writes w with stage := .pending (findActiveReindexRow s.jobs) }) := by
  refine inv.writer ⟨(inv.writes w).owner, ?_⟩
  rintro active (stage | ⟨failures, stage⟩) aliasName jobId own alive
  · cases stage
    exact findActiveReindexRow_of_activeAt inv.once alive
  · cases stage

-- The failures go to the row that was found, which is that of their job while it is running.
theorem record_inv (inv : Inv s)
    (stage : (s.writes w).stage = .failing (some (jobId, row)) failures)
    (running : ∀ failure ∈ failures, ∀ jobId ∈ (s.writes w).owner failure.aliasName,
      findJobState s.jobs jobId = some .running) :
    (∀ jobs, onRow (recordShadowFailures failures) s.jobs jobId = some jobs →
      Inv ({ s with jobs }.leave w (some jobId))) ∧
      (onRow (recordShadowFailures failures) s.jobs jobId = none → Inv (s.leave w none)) := by
  have outstanding : (s.writes w).outstanding = failures := by
    simp [SharedWrite.outstanding, stage]
  have own : ∀ failure ∈ failures, ∀ own, (s.writes w).owner failure.aliasName = some own →
      own = jobId ∧ ∃ job, s.jobs[own]? = some job ∧ job.state = .running := by
    intro failure inside own owner
    have found := running failure inside own owner
    obtain ⟨job, there, state⟩ := Option.map_eq_some_iff.mp found
    have alive : ActiveAt s.jobs own := ⟨job, there, by rw [state]; rfl⟩
    obtain ⟨known, same⟩ := (inv.writes w).active _ (.inr ⟨failures, stage⟩) _ own owner alive
    cases same
    exact ⟨rfl, job, there, state⟩
  constructor
  · intro jobs recorded
    have kept : Inv { s with jobs } := by
      refine inv.update ?_ recorded
      intro row updated update _
      rw [(recordShadowFailures_eq_some update).1]
      rfl
    refine kept.leave ?_
    rw [show ({ s with jobs } : Board W E S).writes w = s.writes w from rfl, outstanding]
    intro failure inside jobId' owner
    rw [(own failure inside jobId' owner).1]
  · intro refused
    refine inv.leave ?_
    rw [outstanding]
    intro failure inside jobId' owner
    -- the running job would have taken it
    obtain ⟨rfl, job, found, state⟩ := own failure inside jobId' owner
    obtain ⟨updated, taken⟩ :=
      recordShadowFailures_of_running (List.ne_nil_of_mem inside) state
    simp [onRow, found, taken] at refused

theorem writeProceed_inv (inv : Inv s) (orderly : s.Orderly (.write w .proceed))
    (step : s.step isAlias (.write w .proceed) = some next) : Inv next := by
  simp only [Board.step, Board.writeStep, Board.writeProceed] at step
  simp only [Board.Orderly] at orderly
  cases stage : (s.writes w).stage with
  | outside => simp [stage] at step
  | writing => simp [stage] at step
  | locked =>
    simp only [stage] at step
    cases step
    refine inv.writer ⟨fun _ _ own => dualWriteJob_lt own, ?_⟩
    rintro active (at_ | ⟨failures, at_⟩) <;> cases at_
  | finding =>
    simp only [stage] at step
    cases step
    exact find_inv inv w
  | pending active =>
    simp only [stage] at step
    cases step
    refine inv.writer ⟨(inv.writes w).owner, ?_⟩
    rintro active' (at_ | ⟨failures, at_⟩) aliasName jobId own alive
    · cases at_
    · cases at_
      exact (inv.writes w).active active (.inl stage) aliasName jobId own alive
  | failing active failures =>
    have outstanding : (s.writes w).outstanding = failures := by
      simp [SharedWrite.outstanding, stage]
    have orderly : ∀ failure ∈ failures, ∀ jobId ∈ (s.writes w).owner failure.aliasName,
        findJobState s.jobs jobId = some .running := by
      have running := orderly (by rw [stage]; rfl)
      rw [SharedWrite.ChargesRunning, outstanding] at running
      exact running
    cases active with
    | none =>
      simp only [stage] at step
      cases step
      refine inv.leave ?_
      rw [outstanding]
      intro failure inside jobId own
      -- a running job would have been found
      obtain ⟨job, found, state⟩ := Option.map_eq_some_iff.mp (orderly failure inside jobId own)
      have alive : ActiveAt s.jobs jobId := ⟨job, found, by rw [state]; rfl⟩
      obtain ⟨row, same⟩ := (inv.writes w).active _ (.inr ⟨failures, stage⟩) _ jobId own alive
      cases same
    | some active =>
      obtain ⟨jobId, row⟩ := active
      simp only [stage] at step
      have recorded := record_inv inv stage orderly
      split at step
      next refused =>
        cases step
        exact recorded.2 refused
      next jobs taken =>
        cases step
        exact recorded.1 jobs taken

theorem write_inv {move : WriteMove S} (inv : Inv s) (orderly : s.Orderly (.write w move))
    (step : s.step isAlias (.write w move) = some next) : Inv next := by
  have whole := step
  cases move <;> simp only [Board.step, Board.writeStep] at step
  case lock =>
    split at step
    · cases step
      refine inv.writer ⟨fun _ _ own => (nomatch own), ?_⟩
      rintro active (at_ | ⟨failures, at_⟩) <;> cases at_
    · cases step
  case fail aliasName operation reason | pend aliasName source linkId =>
    split at step
    next at_ _ =>
      cases step
      refine inv.writer ⟨(inv.writes w).owner, ?_⟩
      rintro active (stage | ⟨failures, stage⟩)
      · exact absurd (at_.symm.trans stage) (by simp)
      · exact absurd (at_.symm.trans stage) (by simp)
    next => cases step
  case return_ =>
    split at step
    next at_ =>
      split at step
      next empty =>
        cases step
        exact inv.leave_of_nil none (by simp [SharedWrite.outstanding, at_, empty.1])
      next =>
        cases step
        refine inv.writer ⟨(inv.writes w).owner, ?_⟩
        rintro active (stage | ⟨failures, stage⟩) <;> cases stage
    next => cases step
  case throw =>
    split at step
    · cases step
      exact inv.leave_of_nil none orderly
    · cases step
  case proceed => exact writeProceed_inv inv orderly whole
  case fault =>
    split at step
    · cases step
    · cases step
    · cases step
      exact inv.leave_of_nil none orderly

theorem step_inv {action : BoardAction W E S} (inv : Inv s) (orderly : s.Orderly action)
    (step : s.step isAlias action = some next) : Inv next := by
  cases action with
  | enqueue e move => exact enqueue_inv inv orderly step
  | claim locked =>
    obtain ⟨⟨jobId, jobs⟩, claimed, rfl⟩ := Option.map_eq_some_iff.mp step
    have update := (claimNextJob_eq_some claimed).2
    exact inv.update (fun _ _ claim _ => active_of_claim claim) update
  | operator jobId action =>
    obtain ⟨jobs, transition, rfl⟩ := Option.map_eq_some_iff.mp step
    exact inv.update (fun _ _ update _ => active_of_transitionJob update) transition
  | finish jobId ending error =>
    obtain ⟨jobs, finished, rfl⟩ := Option.map_eq_some_iff.mp step
    exact inv.update (fun _ _ update _ => active_of_finishJobIfRunning update) finished
  | advance jobId phase =>
    obtain ⟨jobs, advanced, rfl⟩ := Option.map_eq_some_iff.mp step
    refine inv.update ?_ advanced
    rintro row updated update active
    cases update
    exact active
  | switched jobId at_ =>
    obtain ⟨jobs, switched, rfl⟩ := Option.map_eq_some_iff.mp step
    refine inv.update ?_ switched
    rintro row updated update active
    cases update
    exact active
  | write w move => exact write_inv inv orderly step

/-- In the runs whose steps are all orderly one job is active at most, and every failure of a shadow
has been charged to the job that the shadow belongs to. -/
theorem failures_charged_right (isAlias : String → Bool) (actions : List (BoardAction W E S))
    (orderly : ∀ turn ∈ (automaton isAlias).taken actions Board.start, turn.1.Orderly turn.2) :
    ∀ s ∈ (automaton isAlias).visited actions Board.start, ChargedRight s := by
  have step : ∀ (s : Board W E S) action next, Inv s → s.Orderly action →
      (automaton isAlias).step s action = some next → Inv next :=
    fun _ _ _ inv orderly step => step_inv inv orderly step
  intro s reached
  have inv := Automaton.visited_of_taken step start_inv orderly s reached
  exact ⟨inv.once, inv.charged⟩

/-! ### A run of each kind -/

/-- A write whose shadow refuses an operation, and which records that. -/
def failingWrite (aliasName : String) : List (BoardAction Unit Bool Unit) :=
  [.write () .lock, .write () .proceed,
    .write () (.fail aliasName "bulk" "mapper_parsing_exception"), .write () .return_,
    .write () .proceed, .write () .proceed, .write () .proceed]

def oneReindex : List (BoardAction Unit Bool Unit) :=
  [.enqueue true (.begin_ "prs-commits"), .enqueue true (.resolve "prs-commits-v1" "prs-commits-v2"),
    .enqueue true .insert, .claim fun _ => false, .advance 0 .dualWrite] ++
    failingWrite "prs-commits"

instance decidableInsertsAlone (jobs : List ReindexJob) :
    (stage : EnqueueStage) → Decidable (stage.InsertsAlone jobs)
  | .resolved aliasName _ _ =>
      inferInstanceAs (Decidable (∀ row ∈ jobs, row.state.active = true → row.target = aliasName))
  | .idle | .free _ | .done _ | .thrown => .isTrue trivial

instance decidableChargesRunning (jobs : List ReindexJob) (write : SharedWrite S) :
    Decidable (write.ChargesRunning jobs) :=
  inferInstanceAs (Decidable (∀ failure ∈ write.outstanding,
    ∀ jobId ∈ write.owner failure.aliasName, findJobState jobs jobId = some .running))

instance decidableOrderly (s : Board W E S) :
    (action : BoardAction W E S) → Decidable (s.Orderly action)
  | .enqueue e .insert => inferInstanceAs (Decidable ((s.calls e).InsertsAlone s.jobs))
  | .write w .throw | .write w .fault =>
      inferInstanceAs (Decidable ((s.writes w).outstanding = []))
  | .write w .proceed =>
      inferInstanceAs (Decidable
        ((s.writes w).stage.hasFound = true → (s.writes w).ChargesRunning s.jobs))
  | .enqueue _ (.begin_ _) | .enqueue _ (.resolve _ _) => .isTrue trivial
  | .write _ .lock | .write _ (.fail _ _ _) | .write _ (.pend _ _ _) | .write _ .return_ =>
      .isTrue trivial
  | .claim _ | .operator _ _ | .finish _ _ _ | .advance _ _ | .switched _ _ => .isTrue trivial

/-- The only job is charged with the failure of its shadow. -/
theorem failures_charged_right_one :
    ((automaton fun _ => true).visited oneReindex Board.start).any (fun s => !s.charges.isEmpty) =
      true ∧
    ∀ s ∈ (automaton fun _ => true).visited oneReindex Board.start, ChargedRight s :=
  ⟨by decide, failures_charged_right _ oneReindex (by decide)⟩

/-- Two calls that have both found no active job. -/
def twoReindexes : List (BoardAction Unit Bool Unit) :=
  [.enqueue true (.begin_ "prs-releases"), .enqueue false (.begin_ "prs-commits"),
    .enqueue true (.resolve "prs-releases-v1" "prs-releases-v2"),
    .enqueue false (.resolve "prs-commits-v1" "prs-commits-v2"),
    .enqueue true .insert, .enqueue false .insert, .operator 0 .pause, .claim fun _ => false,
    .advance 1 .dualWrite] ++
    failingWrite "prs-commits"

/-- Both jobs are active, and the failure of the second is recorded on the first, which is paused and
does not take it. -/
theorem second_reindex_swallows :
    ¬ ∀ s ∈ (automaton fun _ => true).visited twoReindexes Board.start, ChargedRight s := by
  intro right
  have dropped : ((automaton fun _ => true).visited twoReindexes Board.start).any
      (fun s => s.charges.any fun charge => charge.charged != some charge.raisedFor) = true := by
    decide
  obtain ⟨s, reached, charges⟩ := List.any_eq_true.mp dropped
  obtain ⟨charge, inside, wrong⟩ := List.any_eq_true.mp charges
  rw [(right s reached).charged charge inside] at wrong
  simp at wrong

end PrSearch.Reindex.Charges
