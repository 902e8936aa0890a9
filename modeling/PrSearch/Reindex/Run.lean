import PrSearch.Lib.Automaton
import PrSearch.Reindex.Fence

/-! # A run of a reindex among fenced writes

The runner takes one job through its phases: it activates the double writes under the exclusive
fence, derives every source again, derives the pending ones until none is left, verifies, and moves
the alias under the exclusive fence. Its statements, those of the fenced writes and the actions of
the operator come one at a time, in any order that the fence allows.

The state says which operations the serving index has had since the activation that the target still
lacks, and which failures the shadow has raised; the program sees neither.
-/
namespace PrSearch.Reindex

open Jobs

/-- `LINK_RECOVERY_ROUNDS` -/
def linkRecoveryRounds : Nat := 5

/-- `LINK_RECOVERY_PAGE` -/
def linkRecoveryPage : Nat := 200

/-- `LINK_CUTOVER_ATTEMPTS` -/
def linkCutoverAttempts : Nat := 3

/-- `SWITCH_RECORD_ATTEMPTS` -/
def switchRecordAttempts : Nat := 3

/-- A source that is being derived again from what the database said at `since`. -/
structure Derivation (S : Type*) where
  source : S
  since : Nat

inductive DeriveOutcome
  | rederived
  | absent
  | incomplete
  deriving DecidableEq

inductive RecoveryStage (S : Type*)
  | listing
  | page
  | deriving_ (row : LinkPendingRow S) (since : Nat)
  | derived (row : LinkPendingRow S)
  | roundEnd

/-- Where the runner is in `recoverLinkPending`. The attempt is that of the cutover before, or 0. -/
structure Recovery (S : Type*) where
  attempt : Nat
  round : Nat := 1
  seen : Nat := 0
  after : Option S := none
  page : List (LinkPendingRow S) := []
  more : Bool := false
  stage : RecoveryStage S := .listing

/-- Where the runner is in `runReindexJob`. -/
inductive RunnerAt (S : Type*)
  | queued
  | prepare
  | activate
  | activating
  | activated
  | rebuild (task : Option (Derivation S)) (incomplete : List S)
  | recover (recovery : Recovery S)
  | scanned
  | verify (attempt : Nat)
  | verifying (attempt : Nat)
  | cutover (attempt : Nat)
  | waiting (attempt : Nat)
  | checking (attempt : Nat)
  | counting (attempt : Nat)
  | guarding (attempt : Nat)
  | switching
  | recordingSwitch (tries : Nat)
  | aborted (attempt pendingAtCutover : Nat) (reason : Option String)
  | conclude (ending : JobEnd) (error : Option String)
  | fail (detail : String)
  | clear
  | over

/-- The runner is in a callback of `withReindexExclusive`. -/
def RunnerAt.holdsFence {S : Type*} : RunnerAt S → Bool
  | .activating | .checking _ | .counting _ | .guarding _ | .switching | .recordingSwitch _ => true
  | _ => false

structure System (W S : Type*) [DecidableEq S] where
  job : ReindexJob
  linkPending : LinkPendingTable S
  fence : W → FencedWrite S
  /-- Who holds the shared fence. -/
  sharers : List W
  runner : RunnerAt S
  /-- The alias points to the target. -/
  moved : Bool
  clock : Nat
  activated : Bool
  owed : List (Operation S)
  raised : List ShadowFailure

inductive FenceMove (S : Type*)
  | lock
  | write (operation : WriteOperation S)
  | return_
  | throw
  | proceed
  | fault

inductive RunnerMove (S : Type*)
  | proceed
  | fault (detail : String)
  | rederive (source : S)
  | derived (outcome : DeriveOutcome)
  | recordIncomplete
  | refuse (reason : String)
  | switched (at_ : String)
  | lateFault (detail : String)

inductive Action (W S : Type*)
  | operator (action : JobAction)
  | fence (writer : W) (move : FenceMove S)
  | runner (move : RunnerMove S)

variable {W S : Type*} [DecidableEq W] [DecidableEq S]

/-! ### A fenced write -/

/-- The writer goes on with this. -/
def System.writer (s : System W S) (w : W) (write : FencedWrite S) : System W S :=
  { s with fence := Function.update s.fence w write }

/-- The writer releases the fence. -/
def System.leave (s : System W S) (w : W) : System W S :=
  { s with fence := Function.update s.fence w {}, sharers := s.sharers.filter (· ≠ w) }

/-- The operation, while it is to be accounted for. -/
def System.counted (s : System W S) (operation : WriteOperation S) : List (Operation S) :=
  if operation.served && s.activated && !s.moved then [⟨s.clock, operation.source⟩] else []

def System.write (s : System W S) (w : W) (operation : WriteOperation S) : System W S :=
  let write := s.fence w
  let counted := s.counted operation
  { s with
    fence := Function.update s.fence w (write.write s.job.target counted operation)
    clock := s.clock + 1
    owed := s.owed ++ write.owes counted operation
    raised := s.raised ++
      if s.activated && !s.moved then write.raises s.job.target operation else [] }

/-- The next statement of `withReindexWrite`. -/
def System.fenceProceed (s : System W S) (w : W) : Option (System W S) :=
  let write := s.fence w
  match write.stage with
  | .outside | .writing => none
  | .locked =>
      some (s.writer w
        { stage := .writing, shadow := findDualWriteShadows [s.job] s.job.target })
  | .finding => some (s.writer w { write with stage := .pending (findActiveReindexRow [s.job]) })
  | .pending active =>
      let accepted := acceptedPendings active write.pendings
      let failures := write.failures ++ promotedPendings active write.pendings
      (recordLinkPending accepted s.linkPending).map fun linkPending =>
        { s.writer w
            { write with
              stage := .failing active failures
              unmirrored := withoutRecorded (accepted.map (·.source)) write.unmirrored } with
          linkPending }
  | .failing active failures =>
      let job := if active.isSome then (recordShadowFailures failures s.job).getD s.job else s.job
      some ({ s with job }.leave w)

def System.fenceStep (s : System W S) (w : W) : FenceMove S → Option (System W S)
  | .lock =>
      match (s.fence w).stage with
      | .outside =>
          if s.runner.holdsFence then none
          else some { s.writer w { stage := .locked } with sharers := w :: s.sharers }
      | _ => none
  | .write operation =>
      match (s.fence w).stage with
      | .writing =>
          -- only partial updates of links are pending
          if operation.mirror.cause = some .pending ∧ s.job.target ≠ linksAlias then none
          else some (s.write w operation)
      | _ => none
  | .return_ =>
      match (s.fence w).stage with
      | .writing =>
          if (s.fence w).failures = [] ∧ (s.fence w).pendings.isEmpty then some (s.leave w)
          else some (s.writer w { s.fence w with stage := .finding })
      | _ => none
  | .throw =>
      match (s.fence w).stage with
      | .writing => some (s.leave w)
      | _ => none
  | .proceed => s.fenceProceed w
  | .fault =>
      match (s.fence w).stage with
      | .outside | .writing => none
      | _ => some (s.leave w)

/-! ### The runner -/

def System.at_ (s : System W S) (runner : RunnerAt S) : System W S := { s with runner }

/-- What is owed once a derivation has been stored. -/
def afterDerivation (source : S) (since : Nat) (owed : List (Operation S)) : List (Operation S) :=
  owed.filter fun operation => !(operation.source = source && operation.stamp < since)

/-- Where the runner goes when the statement it is at throws. -/
def RunnerAt.onFault (detail : String) : RunnerAt S → Option (RunnerAt S)
  | .queued | .over => none
  | .recordingSwitch tries =>
      if tries < switchRecordAttempts then some (.recordingSwitch (tries + 1)) else some (.fail detail)
  | .fail _ => some .clear
  | .clear => some .over
  | _ => some (.fail detail)

/-- The next statement of `recoverLinkPending`. -/
def System.recoverProceed (le : S → S → Bool) (s : System W S) (recovery : Recovery S) :
    Option (System W S) :=
  match recovery.stage with
  | .listing =>
      match listLinkPending le s.linkPending linkRecoveryPage recovery.after with
      | [] => some (s.at_ (.recover { recovery with stage := .roundEnd }))
      | first :: rest =>
          some (s.at_ (.recover { recovery with
            stage := .page
            page := first :: rest
            after := ((first :: rest).getLast?).map (·.source)
            more := linkRecoveryPage ≤ (first :: rest).length }))
  | .page =>
      match recovery.page with
      | [] =>
          let stage := if recovery.more then .listing else .roundEnd
          some (s.at_ (.recover { recovery with stage }))
      | row :: rest =>
          some (s.at_ (.recover { recovery with
            stage := .deriving_ row s.clock, page := rest, seen := recovery.seen + 1 }))
  | .deriving_ _ _ => none
  | .derived row =>
      some { s.at_ (.recover { recovery with stage := .page }) with
        linkPending := deleteLinkPending row s.linkPending }
  | .roundEnd =>
      if recovery.seen = 0 ∨ countLinkPending s.linkPending = 0 then
        some (s.at_ (if recovery.attempt = 0 then .scanned else .verify (recovery.attempt + 1)))
      else if recovery.round < linkRecoveryRounds then
        some (s.at_ (.recover { attempt := recovery.attempt, round := recovery.round + 1 }))
      else some (s.at_ (.fail "link_pending_unrecovered"))

/-- The next statement of `runReindexJob`. -/
def System.runnerProceed (le : S → S → Bool) (s : System W S) : Option (System W S) :=
  match s.runner with
  | .queued => s.job.claim.map fun job => { s.at_ .prepare with job }
  | .prepare => some (s.at_ .activate)
  | .activate => if s.sharers.isEmpty then some (s.at_ .activating) else none
  | .activating =>
      some { s.at_ .activated with job := patchPhase .dualWrite s.job, activated := true }
  | .activated => some { s.at_ (.rebuild none []) with job := patchPhase .backfill s.job }
  | .rebuild none [] =>
      some (s.at_ (if s.job.target = linksAlias then .recover { attempt := 0 } else .scanned))
  | .rebuild _ _ => none
  | .recover recovery => s.recoverProceed le recovery
  | .scanned => some (s.at_ (.verify 1))
  | .verify attempt =>
      some { s.at_ (.verifying attempt) with job := patchPhase .verify s.job }
  | .verifying attempt => some (s.at_ (.cutover attempt))
  | .cutover attempt =>
      some { s.at_ (.waiting attempt) with job := patchPhase .cutover s.job }
  | .waiting attempt => if s.sharers.isEmpty then some (s.at_ (.checking attempt)) else none
  | .checking attempt =>
      if s.job.state ≠ .running ∨ 0 < s.job.progress.failures then
        some (s.at_ (.aborted attempt 0 none))
      else if s.job.target = linksAlias then some (s.at_ (.counting attempt))
      else some (s.at_ (.guarding attempt))
  | .counting attempt =>
      let pendingAtCutover := countLinkPending s.linkPending
      if 0 < pendingAtCutover then
        some (s.at_ (.aborted attempt pendingAtCutover
          (some ("link_pending_at_cutover: " ++ toString pendingAtCutover ++ "건"))))
      else some (s.at_ (.guarding attempt))
  | .guarding _ => some (s.at_ .switching)
  | .switching => some { s.at_ (.recordingSwitch 1) with moved := true }
  | .recordingSwitch _ => none
  | .aborted attempt pendingAtCutover reason =>
      if 0 < pendingAtCutover ∧ attempt < linkCutoverAttempts then
        some (s.at_ (.recover { attempt }))
      else some (s.at_ (.conclude .failed (some (reason.getD "cutover_aborted"))))
  | .conclude ending error =>
      some { s.at_ .clear with job := (s.job.finishJobIfRunning ending error).getD s.job }
  | .fail detail =>
      some { s.at_ .clear with
        job := (s.job.finishJobIfRunning .failed (some detail)).getD s.job }
  | .clear =>
      let ended := !s.job.state.active
      some { s.at_ .over with
        linkPending := if s.job.target = linksAlias && ended then ∅ else s.linkPending }
  | .over => none

def System.runnerStep (le : S → S → Bool) (s : System W S) : RunnerMove S → Option (System W S)
  | .proceed => s.runnerProceed le
  | .fault detail => (s.runner.onFault detail).map s.at_
  | .rederive source =>
      match s.runner with
      | .rebuild none incomplete =>
          some (s.at_ (.rebuild (some ⟨source, s.clock⟩) incomplete))
      | _ => none
  | .derived outcome =>
      match s.runner with
      | .rebuild (some task) incomplete =>
          if outcome = .incomplete then
            -- only the links report what they could not complete
            if s.job.target = linksAlias then
              some (s.at_ (.rebuild none (incomplete ++ [task.source])))
            else none
          else
            some { s.at_ (.rebuild none incomplete) with
              owed := afterDerivation task.source task.since s.owed }
      | .recover recovery =>
          match recovery.stage with
          | .deriving_ row since =>
              if outcome = .incomplete then
                some (s.at_ (.recover { recovery with stage := .page }))
              else
                some { s.at_ (.recover { recovery with stage := .derived row }) with
                  owed := afterDerivation row.source since s.owed }
          | _ => none
      | _ => none
  | .recordIncomplete =>
      match s.runner with
      | .rebuild none incomplete =>
          let items := incomplete.map fun source => ⟨source, .deriveIncomplete, none⟩
          (recordLinkPending items s.linkPending).map fun linkPending =>
            { s.at_ (.rebuild none []) with linkPending }
      | _ => none
  | .refuse reason =>
      match s.runner with
      | .verifying _ => some (s.at_ (.conclude .failed (some reason)))
      | .guarding attempt => some (s.at_ (.aborted attempt 0 (some reason)))
      | _ => none
  | .switched at_ =>
      match s.runner with
      | .recordingSwitch _ =>
          some { s.at_ (.conclude .completed none) with job := patchSwitched at_ s.job }
      | _ => none
  | .lateFault detail =>
      match s.runner with
      | .switching => some { s.at_ (.fail detail) with moved := true }
      | _ => none

def System.step (le : S → S → Bool) (s : System W S) : Action W S → Option (System W S)
  | .operator action => (s.job.transitionJob action).map fun job => { s with job }
  | .fence w move => s.fenceStep w move
  | .runner move => s.runnerStep le move

/-- The interleavings of the run, one for each list of its actions. -/
def automaton (le : S → S → Bool) : Automaton (System W S) (Action W S) := ⟨System.step le⟩

/-- Before the job is claimed. The alias has moved already when the job has recorded that. -/
def System.start (job : ReindexJob) (linkPending : LinkPendingTable S) : System W S where
  job := job
  linkPending := linkPending
  fence := fun _ => {}
  sharers := []
  runner := .queued
  moved := job.progress.switchedAt.isSome
  clock := 0
  activated := false
  owed := []
  raised := []

end PrSearch.Reindex
