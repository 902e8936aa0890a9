import PrSearch.Sequence.Assign
import PrSearch.Work.Lease

/-! # Push intents and the rounds that cover them

A round of `prepareAndAssignSequence` reads the coverable intents of its space, fetches the mirror,
numbers the branch and only then closes the intents it has read. Workers run such rounds for the
refresh work they hold, and without a lease for events of the bus, beside everything else that is
done to the table of work. The log keeps what has happened in its order. A worker may stop anywhere.
-/
namespace PrSearch.Work

open Sequence (Instant AssignOutcome isSequenceBranch slice)

/-! ### One round -/

inductive RepositoryStatus
  | active
  | archived
  deriving DecidableEq, Repr

structure RepositoryRow where
  status : RepositoryStatus
  sequenceBranches : List String
  deriving DecidableEq, Repr

/-- Who calls: the runner of refresh work, with the row it holds, or a consumer without a lease. -/
inductive Caller
  | runner (row : WorkRow)
  | event (repositoryId : Int) (baseBranch : String)
  deriving DecidableEq, Repr

namespace Caller

def repositoryId : Caller → Int
  | runner row => row.repositoryId
  | event repositoryId _ => repositoryId

def baseBranch : Caller → String
  | runner row => row.baseBranch
  | event _ baseBranch => baseBranch

def leaseToken : Caller → Option String
  | runner row => row.leaseToken
  | event _ _ => none

end Caller

inductive PrepareOutcome
  | done (assign : AssignOutcome)
  | skipped (reason : String)
  | defer (reason : String)
  | failed (reason : String)
  deriving DecidableEq, Repr

/-- Why a space is not numbered at all. -/
def skipReason (repository : Option RepositoryRow) (baseBranch : String) : Option String :=
  match repository with
  | none => some "repository_unregistered"
  | some repository =>
      if repository.status ≠ .active then some "repository_archived"
      else if isSequenceBranch repository.sequenceBranches baseBranch then none
      else some "not_sequence_branch"

/-- The outcome of a numbering that leaves the intents open. -/
def leftOpen : AssignOutcome → Option PrepareOutcome
  | .locked => some (.defer "sequence_space_locked")
  | .stale reason => some (.failed (slice 200 ("graph_stale:" ++ reason)))
  | .rewritten _ _ => some (.defer "rewrite_pending")
  | .assigned .. | .reassigned .. | .noBranch | .skipped _ => none

/-- `kind = 'refresh' AND repository_id = $1 AND base_branch = $2 AND (state IN (…) OR …)` -/
def Listed (caller : Caller) (row : WorkRow) : Prop :=
  row.kind = .refresh ∧ row.repositoryId = caller.repositoryId ∧
    row.baseBranch = caller.baseBranch ∧
      (row.state = .ready ∨ row.state = .retry ∨
        (row.state = .leased ∧ caller.leaseToken.isSome ∧ row.leaseToken = caller.leaseToken))

instance (caller : Caller) (row : WorkRow) : Decidable (Listed caller row) :=
  inferInstanceAs (Decidable (_ ∧ _ ∧ _ ∧ _))

/-- `ORDER BY work_key` -/
def listCoverableRefreshWorkKeys (caller : Caller) (rows : List WorkRow) : List WorkKey :=
  ((rows.filter fun row => Listed caller row).map WorkRow.workKey).insertionSort fun a b =>
    a.text ≤ b.text

/-- Where a round is. -/
inductive Stage
  | entered
  | admitted
  | listed (coverable : List WorkKey)
  | fetching (coverable : List WorkKey)
  | assigning (coverable : List WorkKey)
  | completing (coverable : List WorkKey) (assign : AssignOutcome)
  | sampling (assign : AssignOutcome)
  /-- Without an outcome the round has ended with an exception. -/
  | ended (outcome : Option PrepareOutcome)
  deriving DecidableEq, Repr

structure Round where
  id : Nat
  caller : Caller
  stage : Stage
  deriving DecidableEq, Repr

inductive Event
  | committed (workKey : WorkKey)
  | fetchBegan (round : Nat)
  | succeeded (round : Nat)
  | notSequenced (round : Nat)
  | covered (workKey : WorkKey) (round : Nat)
  | closed (workKey : WorkKey) (round : Nat)
  deriving DecidableEq, Repr

/-- What happens to a round, its two statements apart. -/
inductive Move
  | findRepositoryById (found : Option RepositoryRow)
  /-- Another caller fetches the mirror of the repository. -/
  | mirrorLockBusy
  | beforeFetch
  /-- The fetch of the mirror, or the reading of the head where there is none. -/
  | fetchBegins
  | fetchFails
  | fetchEnds
  | assignSequence (outcome : AssignOutcome)
  | recordFreshnessSamples
  | raise
  deriving DecidableEq, Repr

/-- Where a move leads, and what it adds to the log. -/
def Round.next (rows : List WorkRow) (round : Round) : Move → Option (Stage × List Event)
  | .findRepositoryById found =>
      match round.stage with
      | .entered =>
          match skipReason found round.caller.baseBranch with
          | some reason => some (.ended (some (.skipped reason)), [.notSequenced round.id])
          | none => some (.admitted, [])
      | _ => none
  | .mirrorLockBusy =>
      match round.stage with
      | .admitted => some (.ended (some (.defer "mirror_locked")), [])
      | _ => none
  | .beforeFetch =>
      match round.stage with
      | .admitted => some (.listed (listCoverableRefreshWorkKeys round.caller rows), [])
      | _ => none
  | .fetchBegins =>
      match round.stage with
      | .listed coverable => some (.fetching coverable, [.fetchBegan round.id])
      | _ => none
  | .fetchFails =>
      match round.stage with
      | .fetching _ => some (.ended (some (.failed "mirror_sync_failed")), [])
      | _ => none
  | .fetchEnds =>
      match round.stage with
      | .fetching coverable => some (.assigning coverable, [])
      | _ => none
  | .assignSequence assign =>
      match round.stage with
      | .assigning coverable =>
          match leftOpen assign with
          | some outcome => some (.ended (some outcome), [])
          | none => some (.completing coverable assign, [.succeeded round.id])
      | _ => none
  | .recordFreshnessSamples =>
      match round.stage with
      | .sampling assign => some (.ended (some (.done assign)), [])
      | _ => none
  | .raise =>
      match round.stage with
      -- the promise of a release is returned unawaited: what it throws is not caught
      | .ended none | .ended (some (.defer _)) | .ended (some (.failed _)) => none
      | _ => some (.ended none, [])

/-- How the runner acknowledges its work. The time of the next attempt is the caller's. -/
def acknowledgement (row : WorkRow) (availableAt : Instant) : Option PrepareOutcome → Statement
  | some (.done _) | some (.skipped _) => .completeWork row.ref row.requestedGeneration
  | some (.defer reason) => .releaseWork row.ref ⟨.ready, availableAt, some reason, true⟩
  | some (.failed reason) => .releaseWork row.ref ⟨.retry, availableAt, some reason, false⟩
  | none => .releaseWork row.ref ⟨.retry, availableAt, some "exception", false⟩

/-! ### All rounds -/

structure Rounds (W : Type) where
  leases : Leases
  current : W → Option Round
  begun : Nat
  log : List Event

inductive Rounds.Turn (W : Type)
  | outside (action : Action)
  | enter (w : W) (caller : Caller)
  | move (w : W) (move : Move)
  | completeCovered (w : W) (now : Instant)
  | acknowledge (w : W) (now availableAt : Instant)
  | crash (w : W)

def WorkKey.IsPush : WorkKey → Prop
  | push _ => True
  | space .. => False

instance : DecidablePred WorkKey.IsPush
  | .push _ => inferInstanceAs (Decidable True)
  | .space .. => inferInstanceAs (Decidable False)

/-- Covered intents are completed, and the leases of pushes acknowledged, by rounds alone. -/
def Statement.Outside : Statement → Prop
  | completeCoveredRefreshWorks _ _ => False
  | completeWork lease _ | releaseWork lease _ => ¬ lease.workKey.IsPush
  | _ => True

instance : DecidablePred Statement.Outside
  | .completeCoveredRefreshWorks .. => inferInstanceAs (Decidable False)
  | .completeWork .. | .releaseWork .. => inferInstanceAs (Decidable (¬ _))
  | .enqueueRefreshWork .. | .requestWork .. | .updateWorkProgress .. | .heartbeatWork ..
  | .reclaimExpiredLeases => inferInstanceAs (Decidable True)

def Action.Outside : Action → Prop
  | .statement made _ => made.Outside
  | .claimDueWork .. => True

instance : DecidablePred Action.Outside
  | .statement made _ => inferInstanceAs (Decidable made.Outside)
  | .claimDueWork .. => inferInstanceAs (Decidable True)

/-- The intent that an action commits. -/
def Action.commits (rows : List WorkRow) : Action → List Event
  | .statement (.enqueueRefreshWork input) _ =>
      if (findWork (refreshWorkKey input.deliveryId) rows).isNone then
        [.committed (refreshWorkKey input.deliveryId)]
      else []
  | _ => []

namespace Rounds

variable {W : Type}

def initial : Rounds W := ⟨.initial, fun _ => none, 0, []⟩

/-- Do something to the table of work, and log it. -/
def act (s : Rounds W) (action : Action) (events : List Event) : Option (Rounds W) :=
  (s.leases.step action).map fun leases => { s with leases := leases, log := s.log ++ events }

variable [DecidableEq W]

def put (s : Rounds W) (w : W) (round : Option Round) : Rounds W :=
  { s with current := Function.update s.current w round }

/-- A runner enters with a refresh work that it has claimed. -/
def Enters (s : Rounds W) : Caller → Prop
  | .runner row => row ∈ s.leases.claimed ∧ row.kind = .refresh
  | .event _ _ => True

instance (s : Rounds W) : DecidablePred s.Enters
  | .runner _ => inferInstanceAs (Decidable (_ ∧ _))
  | .event _ _ => inferInstanceAs (Decidable True)

/-- The rows that `RETURNING` gives back. -/
def coveredBy (round : Round) (coverable : List WorkKey) (rows : List WorkRow) : List Event :=
  (rows.filter fun row => Coverable coverable round.caller.leaseToken row).map fun row =>
    .covered row.workKey round.id

/-- A work is closed by an acknowledgement that completes it and still has its lease. -/
def closedBy (round : Round) (row : WorkRow) (statement : Statement) (rows : List WorkRow) :
    List Event :=
  match statement with
  | .completeWork lease _ =>
      if rows.any fun row => lease.Holds row then [.closed row.workKey round.id] else []
  | _ => []

def step (s : Rounds W) : Turn W → Option (Rounds W)
  | .outside action =>
      if action.Outside then s.act action (action.commits s.leases.table.rows) else none
  | .enter w caller =>
      match s.current w with
      | none =>
          if s.Enters caller then
            some ({ s with begun := s.begun + 1 }.put w (some ⟨s.begun, caller, .entered⟩))
          else none
      | some _ => none
  | .move w move =>
      match s.current w with
      | none => none
      | some round =>
          (round.next s.leases.table.rows move).map fun (stage, events) =>
            { s with log := s.log ++ events }.put w (some { round with stage := stage })
  | .completeCovered w now =>
      match s.current w with
      | some ⟨id, caller, .completing coverable assign⟩ =>
          (s.act (.statement (.completeCoveredRefreshWorks coverable caller.leaseToken) now)
            (coveredBy ⟨id, caller, .completing coverable assign⟩ coverable
              s.leases.table.rows)).map fun next =>
            next.put w (some ⟨id, caller, .sampling assign⟩)
      | _ => none
  | .acknowledge w now availableAt =>
      match s.current w with
      | some ⟨id, .runner row, .ended outcome⟩ =>
          let statement := acknowledgement row availableAt outcome
          (s.act (.statement statement now)
            (closedBy ⟨id, .runner row, .ended outcome⟩ row statement
              s.leases.table.rows)).map fun next => next.put w none
      -- the bus takes the outcome, and the table nothing
      | some ⟨_, .event _ _, .ended _⟩ => some (s.put w none)
      | _ => none
  | .crash w => some (s.put w none)

end Rounds

def covering {W : Type} [DecidableEq W] : Automaton (Rounds W) (Rounds.Turn W) := ⟨Rounds.step⟩

/-! ### What is promised -/

namespace Rounds

variable {W : Type}

/-- A round fetched after the intent had been committed, succeeded, and covered it then. -/
def CoveredAfterFetch (log : List Event) (workKey : WorkKey) : Prop :=
  ∃ round, [.committed workKey, .fetchBegan round, .succeeded round,
    .covered workKey round].Sublist log

/-- A round of its own found, after the intent had been committed, that the space is not numbered,
and closed it. -/
def ClosedUnsequenced (log : List Event) (workKey : WorkKey) : Prop :=
  ∃ round, [.committed workKey, .notSequenced round, .closed workKey round].Sublist log

end Rounds

def WorkRow.Pending (row : WorkRow) : Prop :=
  row.state = .ready ∨ row.state = .retry ∨ row.state = .leased

def WorkRow.MarkedCovered (row : WorkRow) : Prop :=
  row.state = .done ∧ row.lastReason = some "covered"

instance (row : WorkRow) : Decidable row.Pending :=
  inferInstanceAs (Decidable (_ ∨ _ ∨ _))

instance (row : WorkRow) : Decidable row.MarkedCovered :=
  inferInstanceAs (Decidable (_ ∧ _))

variable {log events : List Event} {workKey : WorkKey} {row : WorkRow} {now : Instant}
  {action : Action} {caller : Caller}

namespace Rounds

variable {W : Type}

def OnlyCoveredAfterFetch (s : Rounds W) : Prop :=
  ∀ row ∈ s.leases.table.rows, row.workKey.IsPush → row.MarkedCovered →
    CoveredAfterFetch s.log row.workKey

def NoneDropped (s : Rounds W) : Prop :=
  ∀ workKey, .committed workKey ∈ s.log →
    ∃ row ∈ s.leases.table.rows, row.workKey = workKey ∧
      (row.Pending ∨ (row.MarkedCovered ∧ CoveredAfterFetch s.log workKey) ∨
        (row.state = .done ∧ ClosedUnsequenced s.log workKey))

/-! ### The log only grows -/

theorem CoveredAfterFetch.append (covered : CoveredAfterFetch log workKey) (events : List Event) :
    CoveredAfterFetch (log ++ events) workKey := by
  obtain ⟨round, order⟩ := covered
  exact ⟨round, order.trans (List.sublist_append_left log events)⟩

theorem ClosedUnsequenced.append (closed : ClosedUnsequenced log workKey) (events : List Event) :
    ClosedUnsequenced (log ++ events) workKey := by
  obtain ⟨round, order⟩ := closed
  exact ⟨round, order.trans (List.sublist_append_left log events)⟩

/-- What comes last is logged after everything before it. -/
theorem sublist_append_of_mem {earlier : List Event} {event : Event} (order : earlier.Sublist log)
    (now : event ∈ events) : (earlier ++ [event]).Sublist (log ++ events) :=
  order.append (List.singleton_sublist.mpr now)

end Rounds

/-! ### How an intent stands -/

open Rounds (CoveredAfterFetch ClosedUnsequenced)

def WorkRow.Settled (log : List Event) (row : WorkRow) : Prop :=
  row.Pending ∨ (row.MarkedCovered ∧ CoveredAfterFetch log row.workKey) ∨
    (row.state = .done ∧ row.lastReason = none ∧ ClosedUnsequenced log row.workKey)

namespace WorkRow

theorem Settled.append (settled : row.Settled log) (events : List Event) :
    row.Settled (log ++ events) := by
  rcases settled with pending | ⟨marked, covered⟩ | ⟨done, reason, closed⟩
  · exact .inl pending
  · exact .inr (.inl ⟨marked, covered.append events⟩)
  · exact .inr (.inr ⟨done, reason, closed.append events⟩)

/-- The marks of a covered row are those of `completeCoveredRefreshWorks`. -/
theorem Settled.covered (settled : row.Settled log) (marked : row.MarkedCovered) :
    CoveredAfterFetch log row.workKey := by
  rcases settled with (ready | retry | leased) | ⟨-, covered⟩ | ⟨-, reason, -⟩
  · exact absurd (ready.symm.trans marked.1) (by decide)
  · exact absurd (retry.symm.trans marked.1) (by decide)
  · exact absurd (leased.symm.trans marked.1) (by decide)
  · exact covered
  · exact absurd (reason.symm.trans marked.2) (by decide)

/-- A row is settled as long as its state, and what is logged of a closed one, are kept. -/
theorem Settled.of_kept {next : WorkRow} (settled : row.Settled log)
    (key : next.workKey = row.workKey) (state : next.state = row.state)
    (reason : next.lastReason = row.lastReason) : next.Settled log := by
  simpa only [Settled, Pending, MarkedCovered, key, state, reason] using settled

theorem settled_release (next : Release) (open_ : next.state = .ready ∨ next.state = .retry) :
    (row.release next).Settled log := by
  left
  rcases open_ with ready | retry
  · exact .inl (by simp [WorkRow.release, ReleaseState.workState, ready])
  · exact .inr (.inl (by simp [WorkRow.release, ReleaseState.workState, retry]))

end WorkRow

variable {statement : Statement} {coverable : List WorkKey} {round : Round} {rows : List WorkRow}
  {id : Nat}

/-- Nobody else closes an intent. -/
theorem settled_updated (outside : statement.Outside) (now : Instant) (push : row.workKey.IsPush)
    (settled : row.Settled log) : (statement.updated now row).Settled log := by
  have notHeld : ∀ lease : LeaseRef, ¬ lease.workKey.IsPush → ¬ lease.Holds row := by
    intro lease other holds
    rw [← holds.1] at other
    exact other push
  cases statement with
  | enqueueRefreshWork input => exact settled
  | requestWork input =>
    have different : row.workKey ≠ input.workKey := by
      intro same
      rw [same] at push
      exact push
    simp only [Statement.updated, different, if_false]
    exact settled
  | completeWork lease generation =>
    simp only [Statement.updated, notHeld lease outside, if_false]
    exact settled
  | releaseWork lease next =>
    simp only [Statement.updated, notHeld lease outside, if_false]
    exact settled
  | updateWorkProgress | heartbeatWork =>
    simp only [Statement.updated]
    split
    · exact settled.of_kept rfl rfl rfl
    · exact settled
  | reclaimExpiredLeases =>
    simp only [Statement.updated]
    split
    · exact .inl (.inr (.inl rfl))
    · exact settled
  | completeCoveredRefreshWorks => exact absurd outside id

/-! ### A lease that is lost stays lost -/

theorem holds_of_updated {lease : LeaseRef} (holds : lease.Holds (statement.updated now row)) :
    lease.Holds row := by
  cases statement with
  | enqueueRefreshWork input => exact holds
  | requestWork input =>
    simp only [Statement.updated] at holds
    split at holds
    · obtain ⟨key, token, leased⟩ := holds
      refine ⟨key, token, ?_⟩
      -- a request leases no row
      simp only [RequestWorkInput.again] at leased
      split at leased
      · assumption
      · cases leased
    · exact holds
  | completeWork | releaseWork | reclaimExpiredLeases | completeCoveredRefreshWorks =>
    simp only [Statement.updated] at holds
    split at holds
    · -- the row has no token any more
      obtain ⟨-, token, -⟩ := holds
      cases token
    · exact holds
  | updateWorkProgress | heartbeatWork =>
    simp only [Statement.updated] at holds
    split at holds
    · exact holds
    · exact holds

/-- A claim returns the row of a work as it stands in the table. -/
def SameWork (claim row : WorkRow) : Prop :=
  row.kind = claim.kind ∧ row.repositoryId = claim.repositoryId ∧
    row.baseBranch = claim.baseBranch

theorem Statement.updated_sameWork (now : Instant) (statement : Statement) (row : WorkRow) :
    SameWork row (statement.updated now row) := by
  cases statement with
  | enqueueRefreshWork input => exact ⟨rfl, rfl, rfl⟩
  | requestWork | completeWork | releaseWork | updateWorkProgress | heartbeatWork
  | reclaimExpiredLeases | completeCoveredRefreshWorks =>
    simp only [Statement.updated]
    split <;> exact ⟨rfl, rfl, rfl⟩

theorem SameWork.trans {a b c : WorkRow} (first : SameWork a b) (second : SameWork b c) :
    SameWork a c :=
  ⟨second.1.trans first.1, second.2.1.trans first.2.1, second.2.2.trans first.2.2⟩

namespace Leases

theorem live_iff (s : Leases) (lease : LeaseRef) :
    s.Live lease ↔ ∃ row, findWork lease.workKey s.table.rows = some row ∧ lease.Holds row := by
  constructor
  · rintro ⟨row, stored, holds⟩
    have found := s.table.lawful.findWork_of_mem stored
    rw [holds.1] at found
    exact ⟨row, found, holds⟩
  · rintro ⟨row, found, holds⟩
    exact ⟨row, mem_of_findWork found, holds⟩

/-- The rows returned by claims stay those that they were, and their leases come to no new life. -/
structure Extends (s next : Leases) : Prop where
  claimed : ∀ claim ∈ s.claimed, claim ∈ next.claimed
  live : ∀ claim ∈ s.claimed, next.Live claim.ref → s.Live claim.ref

theorem Extends.refl (s : Leases) : s.Extends s := ⟨fun _ made => made, fun _ _ live => live⟩

theorem Consistent.extends {s next : Leases} (consistent : s.Consistent)
    (stepped : s.step action = some next) : s.Extends next := by
  cases action with
  | statement statement now =>
    obtain ⟨-, claimed, rows⟩ := step_statement stepped
    constructor
    · intro claim made
      rwa [claimed]
    · intro claim made live
      rw [live_iff] at live ⊢
      obtain ⟨row, found, holds⟩ := live
      rw [rows] at found
      rcases findWork_run_cases found with ⟨-, inserted⟩ | ⟨old, before, rfl⟩
      · -- an inserted row has no lease
        have unclaimed : Agrees none row := agrees_inserted inserted
        obtain ⟨_, isLast, -⟩ := unclaimed.holder holds.2.2
        cases isLast
      · exact ⟨old, before, holds_of_updated holds⟩
  | claimDueWork options locked genRandomUuid now =>
    obtain ⟨fresh, claimed, rows⟩ := step_claim stepped
    constructor
    · intro claim made
      rw [claimed]
      exact List.mem_append_right _ made
    · intro claim made live
      rw [live_iff] at live ⊢
      obtain ⟨row, found, holds⟩ := live
      rw [rows, findWork_claimDueWork] at found
      obtain ⟨old, before, leased⟩ := Option.map_eq_some_iff.mp found
      split at leased
      next selected =>
        -- the token of a new claim has not been drawn before
        exfalso
        have new : row ∈ (Work.claimDueWork options locked genRandomUuid now s.table.rows).1 := by
          rw [← leased]
          exact List.mem_map_of_mem selected
        have token := token_of_holds (consistent.claims claim made).1 holds
        rw [Fresh, List.map_append] at fresh
        have apart := List.disjoint_of_nodup_append fresh (List.mem_map_of_mem new)
        rw [token] at apart
        exact apart (List.mem_map_of_mem made)
      next =>
        subst leased
        exact ⟨old, before, holds⟩

/-- The rows returned by claims are in the table. -/
def Rooted (s : Leases) : Prop :=
  ∀ claim ∈ s.claimed, ∃ row, findWork claim.workKey s.table.rows = some row ∧ SameWork claim row

theorem Rooted.step {s next : Leases} (rooted : s.Rooted) (stepped : s.step action = some next) :
    next.Rooted := by
  intro claim made
  cases action with
  | statement statement now =>
    obtain ⟨-, claimed, rows⟩ := step_statement stepped
    rw [claimed] at made
    obtain ⟨row, found, same⟩ := rooted claim made
    refine ⟨statement.updated now row, ?_, same.trans (Statement.updated_sameWork now statement row)⟩
    rw [rows, findWork_run, found]
    rfl
  | claimDueWork options locked genRandomUuid now =>
    obtain ⟨-, claimed, rows⟩ := step_claim stepped
    have present : ∃ old, findWork claim.workKey s.table.rows = some old ∧ SameWork claim old := by
      rw [claimed] at made
      rcases List.mem_append.mp made with new | earlier
      · obtain ⟨row, -, stored, -, rfl⟩ := mem_claimDueWork new
        exact ⟨row, s.table.lawful.findWork_of_mem stored, rfl, rfl, rfl⟩
      · exact rooted claim earlier
    obtain ⟨old, before, same⟩ := present
    rw [rows, findWork_claimDueWork, before]
    refine ⟨_, Option.map_some _ _, ?_⟩
    split
    · exact same
    · exact same

end Leases

/-! ### How a round stands -/

namespace Caller

/-- As long as its lease holds, the work of the runner is one of these. -/
def HeldIn (leases : Leases) (workKeys : List WorkKey) : Caller → Prop
  | runner row => leases.Live row.ref → row.workKey ∈ workKeys
  | event _ _ => True

/-- What a caller has entered with. -/
def Valid (leases : Leases) : Caller → Prop
  | runner row => row ∈ leases.claimed ∧ row.kind = .refresh
  | event _ _ => True

theorem Valid.extends {s next : Leases} (more : s.Extends next) (valid : caller.Valid s) :
    caller.Valid next := by
  cases caller with
  | runner row => exact ⟨more.claimed row valid.1, valid.2⟩
  | event => trivial

theorem HeldIn.extends {s next : Leases} (more : s.Extends next) (valid : caller.Valid s)
    {workKeys : List WorkKey} (held : caller.HeldIn s workKeys) : caller.HeldIn next workKeys := by
  cases caller with
  | runner row => exact fun live => held (more.live row valid.1 live)
  | event => trivial

/-- What is listed holds the work of the runner, if the runner has its lease still. -/
theorem heldIn_listed {leases : Leases} (consistent : leases.Consistent) (rooted : leases.Rooted)
    (valid : caller.Valid leases) :
    caller.HeldIn leases (listCoverableRefreshWorkKeys caller leases.table.rows) := by
  cases caller with
  | event => trivial
  | runner row =>
    intro live
    obtain ⟨stored, found, holds⟩ := (leases.live_iff row.ref).mp live
    obtain ⟨same, isRow, kind, repository, branch⟩ := rooted row valid.1
    have equal : same = stored := Option.some.inj (isRow.symm.trans found)
    subst equal
    have token := token_of_holds (consistent.claims row valid.1).1 holds
    have listed : Listed (.runner row) same := by
      refine ⟨kind.trans valid.2, repository, branch, .inr (.inr ⟨holds.2.2, ?_, token⟩)⟩
      exact (consistent.claims row valid.1).1
    rw [listCoverableRefreshWorkKeys, List.mem_insertionSort]
    refine List.mem_map.mpr ⟨same, List.mem_filter.mpr ⟨mem_of_findWork isRow, ?_⟩, holds.1⟩
    exact decide_eq_true listed

/-- Completed intents have no lease. -/
theorem heldIn_nil_of_covered {s next : Leases} (consistent : s.Consistent) (rooted : s.Rooted)
    (valid : caller.Valid s) (held : caller.HeldIn s coverable)
    (stepped : s.step (.statement (.completeCoveredRefreshWorks coverable caller.leaseToken) now) =
      some next) : caller.HeldIn next [] := by
  cases caller with
  | event => trivial
  | runner row =>
    intro live
    exfalso
    have before := (consistent.extends stepped).live row valid.1 live
    obtain ⟨-, -, rows⟩ := Leases.step_statement stepped
    obtain ⟨stored, found, holds⟩ := (next.live_iff row.ref).mp live
    obtain ⟨old, wasFound, wasHeld⟩ := (s.live_iff row.ref).mp before
    rw [rows, findWork_run, wasFound] at found
    obtain rfl := Option.some.inj found
    obtain ⟨same, isRow, kind, -, -⟩ := rooted row valid.1
    have equal : same = old := Option.some.inj (isRow.symm.trans wasFound)
    subst equal
    have token := token_of_holds (consistent.claims row valid.1).1 wasHeld
    have coverable : Coverable coverable row.leaseToken same := by
      refine ⟨kind.trans valid.2, wasHeld.1 ▸ held before, .inr (.inr ⟨wasHeld.2.2, ?_, token⟩)⟩
      exact (consistent.claims row valid.1).1
    simp only [Statement.updated, leaseToken, coverable, if_true] at holds
    cases holds.2.1

end Caller

/-- The intents listed had been committed, and the events after that are logged behind it. -/
def Stage.Sound (leases : Leases) (log : List Event) (id : Nat) (caller : Caller) : Stage → Prop
  | .entered | .admitted => True
  | .listed coverable =>
      (∀ workKey ∈ coverable, [Event.committed workKey].Sublist log) ∧ caller.HeldIn leases coverable
  | .fetching coverable | .assigning coverable =>
      (∀ workKey ∈ coverable, [Event.committed workKey, .fetchBegan id].Sublist log) ∧
        caller.HeldIn leases coverable
  | .completing coverable _ =>
      (∀ workKey ∈ coverable,
        [Event.committed workKey, .fetchBegan id, .succeeded id].Sublist log) ∧
          caller.HeldIn leases coverable
  | .sampling _ | .ended (some (.done _)) => caller.HeldIn leases []
  | .ended (some (.skipped _)) =>
      ∀ row, caller = .runner row → [Event.committed row.workKey, .notSequenced id].Sublist log
  | .ended _ => True

structure Round.Sound (leases : Leases) (log : List Event) (round : Round) : Prop where
  valid : round.caller.Valid leases
  stage : round.stage.Sound leases log round.id round.caller

theorem Round.Sound.extends {s next : Leases} (more : s.Extends next) (sound : round.Sound s log)
    (events : List Event) : round.Sound next (log ++ events) := by
  have later : ∀ {before : List Event}, before.Sublist log → before.Sublist (log ++ events) :=
    fun order => order.trans (List.sublist_append_left log events)
  have held : ∀ {workKeys}, round.caller.HeldIn s workKeys → round.caller.HeldIn next workKeys :=
    fun was => was.extends more sound.valid
  refine ⟨sound.valid.extends more, ?_⟩
  have stage := sound.stage
  generalize round.stage = current at stage
  cases current with
  | entered | admitted => trivial
  | listed | fetching | assigning | completing =>
    exact ⟨fun workKey listed => later (stage.1 workKey listed), held stage.2⟩
  | sampling => exact held stage
  | ended outcome =>
    rcases outcome with - | (assign | reason | reason | reason)
    · trivial
    · exact held stage
    · exact fun row own => later (stage row own)
    · trivial
    · trivial

theorem committed_of_commits (commits : .committed workKey ∈ action.commits rows) :
    workKey.IsPush ∧ ∃ input now, action = .statement (.enqueueRefreshWork input) now ∧
      workKey = refreshWorkKey input.deliveryId := by
  unfold Action.commits at commits
  split at commits
  next input now =>
    split at commits
    · obtain ⟨rfl⟩ := List.mem_singleton.mp commits
      exact ⟨trivial, input, now, rfl, rfl⟩
    · cases commits
  next => cases commits

/-- An intent has its row from the step that commits it. -/
theorem isSome_findWork_step {s next : Leases} (stepped : s.step action = some next)
    (push : workKey.IsPush) :
    (findWork workKey next.table.rows).isSome ↔
      (findWork workKey s.table.rows).isSome ∨ .committed workKey ∈ action.commits s.table.rows := by
  cases action with
  | claimDueWork options locked genRandomUuid now =>
    obtain ⟨-, -, rows⟩ := Leases.step_claim stepped
    rw [rows, findWork_claimDueWork, Option.isSome_map]
    simp [Action.commits]
  | statement statement now =>
    obtain ⟨-, -, rows⟩ := Leases.step_statement stepped
    rw [rows, findWork_run]
    cases before : findWork workKey s.table.rows with
    | some row => simp [Statement.effect]
    | none =>
      simp only [Statement.effect, Option.elim_none, Option.isSome_none, Bool.false_eq_true,
        false_or]
      cases statement with
      | enqueueRefreshWork input =>
        simp only [Statement.inserted, Action.commits]
        by_cases same : workKey = refreshWorkKey input.deliveryId
        · simp [← same, before]
        · simp [same]
      | requestWork input =>
        have different : workKey ≠ input.workKey := by
          rintro rfl
          exact push
        simp [Statement.inserted, Action.commits, different]
      | completeWork | releaseWork | updateWorkProgress | heartbeatWork | reclaimExpiredLeases
      | completeCoveredRefreshWorks => simp [Statement.inserted, Action.commits]

namespace Rounds

variable {W : Type}

structure Sound (s : Rounds W) : Prop where
  consistent : s.leases.Consistent
  rooted : s.leases.Rooted
  committed : ∀ workKey, .committed workKey ∈ s.log ↔
    workKey.IsPush ∧ (findWork workKey s.leases.table.rows).isSome
  settled : ∀ workKey row, findWork workKey s.leases.table.rows = some row → workKey.IsPush →
    row.Settled s.log
  rounds : ∀ w, ∀ round ∈ s.current w, round.Sound s.leases s.log

theorem sound_initial : (initial : Rounds W).Sound where
  consistent := Leases.consistent_initial
  rooted := List.forall_mem_nil _
  committed := by
    intro workKey
    simp [initial, Leases.initial, Table.empty, findWork]
  settled := fun _ _ found => by cases found
  rounds := fun _ _ here => by cases here

variable {s : Rounds W}

/-- A step of the table keeps everything in order when the intents it closes are accounted for by
what is logged with it. -/
theorem Sound.act {next : Rounds W} (sound : s.Sound) (acted : s.act action events = some next)
    (commits : ∀ workKey, .committed workKey ∈ events ↔
      .committed workKey ∈ action.commits s.leases.table.rows)
    (settles : ∀ statement now, action = .statement statement now → ∀ row,
      findWork row.workKey s.leases.table.rows = some row → row.workKey.IsPush →
        row.Settled s.log → (statement.updated now row).Settled (s.log ++ events)) :
    next.Sound ∧ s.leases.Extends next.leases ∧ s.leases.step action = some next.leases ∧
      next.log = s.log ++ events ∧ next.current = s.current := by
  obtain ⟨leases, stepped, rfl⟩ := Option.map_eq_some_iff.mp acted
  have more := sound.consistent.extends stepped
  refine ⟨⟨sound.consistent.step stepped, sound.rooted.step stepped, ?_, ?_, ?_⟩, more, stepped,
    rfl, rfl⟩
  · intro workKey
    rw [List.mem_append, commits, sound.committed]
    constructor
    · rintro (⟨push, stored⟩ | now)
      · exact ⟨push, (isSome_findWork_step stepped push).mpr (.inl stored)⟩
      · have push := (committed_of_commits now).1
        exact ⟨push, (isSome_findWork_step stepped push).mpr (.inr now)⟩
    · rintro ⟨push, stored⟩
      rcases (isSome_findWork_step stepped push).mp stored with before | now
      · exact .inl ⟨push, before⟩
      · exact .inr now
  · intro workKey row found push
    cases action with
    | statement statement now =>
      obtain ⟨-, -, rows⟩ := Leases.step_statement stepped
      dsimp only at found
      rw [rows] at found
      rcases findWork_run_cases found with ⟨-, inserted⟩ | ⟨old, before, rfl⟩
      · -- only an intent is inserted under the key of a push
        rcases Statement.inserted_cases inserted with ⟨input, -, rfl⟩ | ⟨input, rfl, -⟩
        · exact .inl (.inl rfl)
        · exact absurd push id
      · have key := workKey_of_findWork before
        subst key
        exact settles statement now rfl old before push (sound.settled _ old before push)
    | claimDueWork options locked genRandomUuid now =>
      rcases Leases.step_claim_row stepped found with ⟨old, -, rfl, -⟩ | ⟨before, -⟩
      · exact .inl (.inr (.inr rfl))
      · exact (sound.settled workKey row before push).append events
  · intro w round here
    exact (sound.rounds w round here).extends more events

/-- An event that commits nothing may be logged. -/
theorem Sound.logged (sound : s.Sound) (others : ∀ workKey, .committed workKey ∉ events) :
    { s with log := s.log ++ events }.Sound where
  consistent := sound.consistent
  rooted := sound.rooted
  committed := by
    intro workKey
    rw [List.mem_append, or_iff_left (others workKey)]
    exact sound.committed workKey
  settled := fun workKey row found push => (sound.settled workKey row found push).append events
  rounds := fun w round here =>
    (sound.rounds w round here).extends (Leases.Extends.refl s.leases) events

/-- The intents that are listed have been committed. -/
theorem Sound.committed_of_listed (sound : s.Sound)
    (listed : workKey ∈ listCoverableRefreshWorkKeys caller s.leases.table.rows) :
    .committed workKey ∈ s.log := by
  rw [listCoverableRefreshWorkKeys, List.mem_insertionSort] at listed
  obtain ⟨row, chosen, rfl⟩ := List.mem_map.mp listed
  obtain ⟨stored, meets⟩ := List.mem_filter.mp chosen
  have refresh : row.kind = .refresh := (of_decide_eq_true meets).1
  have found := s.leases.table.lawful.findWork_of_mem stored
  obtain ⟨deliveryId, push⟩ := (sound.consistent.rows row.workKey row found).refresh refresh
  refine (sound.committed row.workKey).mpr ⟨?_, Option.isSome_iff_exists.mpr ⟨row, found⟩⟩
  rw [push]
  trivial

/-- The work of a runner is an intent that has been committed. -/
theorem Sound.committed_of_valid (sound : s.Sound) (valid : (Caller.runner row).Valid s.leases) :
    .committed row.workKey ∈ s.log := by
  obtain ⟨stored, found, kind, -⟩ := sound.rooted row valid.1
  have refresh := (sound.consistent.rows row.workKey stored found).refresh (kind.trans valid.2)
  obtain ⟨deliveryId, push⟩ := refresh
  rw [workKey_of_findWork found] at push
  refine (sound.committed row.workKey).mpr ⟨?_, Option.isSome_iff_exists.mpr ⟨stored, found⟩⟩
  rw [push]
  trivial

/-- One case for each move. -/
theorem Sound.next (sound : s.Sound) (kept : round.Sound s.leases s.log) {move : Move}
    {stage : Stage} (moved : round.next s.leases.table.rows move = some (stage, events)) :
    (∀ workKey, .committed workKey ∉ events) ∧
      { round with stage := stage }.Sound s.leases (s.log ++ events) := by
  obtain ⟨id, caller, current⟩ := round
  obtain ⟨valid, before⟩ := kept
  dsimp only at valid before
  cases move <;> simp only [Round.next] at moved
  case findRepositoryById found =>
    split at moved
    next =>
      split at moved
      · cases moved
        refine ⟨by simp, valid, ?_⟩
        rintro row rfl
        have committed := List.singleton_sublist.mpr (sound.committed_of_valid valid)
        exact sublist_append_of_mem committed (List.mem_singleton_self _)
      · cases moved
        exact ⟨by simp, valid, trivial⟩
    next => cases moved
  case mirrorLockBusy =>
    split at moved
    next =>
      cases moved
      exact ⟨by simp, valid, trivial⟩
    next => cases moved
  case beforeFetch =>
    split at moved
    next =>
      cases moved
      refine ⟨by simp, valid, ?_, Caller.heldIn_listed sound.consistent sound.rooted valid⟩
      intro workKey listed
      rw [List.append_nil]
      exact List.singleton_sublist.mpr (sound.committed_of_listed listed)
    next => cases moved
  case fetchBegins =>
    split at moved
    next =>
      cases moved
      refine ⟨by simp, valid, ?_, before.2⟩
      intro workKey listed
      exact sublist_append_of_mem (before.1 workKey listed) (List.mem_singleton_self _)
    next => cases moved
  case fetchFails =>
    split at moved
    next =>
      cases moved
      exact ⟨by simp, valid, trivial⟩
    next => cases moved
  case fetchEnds =>
    split at moved
    next =>
      cases moved
      rw [List.append_nil]
      exact ⟨by simp, valid, before⟩
    next => cases moved
  case assignSequence assign =>
    split at moved
    next =>
      cases outcome : leftOpen assign with
      | some outcome =>
        simp only [outcome] at moved
        cases moved
        refine ⟨by simp, valid, ?_⟩
        -- what is left open is deferred or failed, never done or skipped
        cases assign <;> cases outcome <;> trivial
      | none =>
        simp only [outcome] at moved
        cases moved
        refine ⟨by simp, valid, ?_, before.2⟩
        intro workKey listed
        exact sublist_append_of_mem (before.1 workKey listed) (List.mem_singleton_self _)
    next => cases moved
  case recordFreshnessSamples =>
    split at moved
    next =>
      cases moved
      exact ⟨by simp, valid, before⟩
    next => cases moved
  case raise =>
    split at moved
    · cases moved
    · cases moved
    · cases moved
    · cases moved
      exact ⟨by simp, valid, trivial⟩

theorem closedBy_of_holds (round : Round) {stored : WorkRow} (generation : Nat)
    (isRow : stored ∈ rows) (holds : row.ref.Holds stored) :
    closedBy round row (.completeWork row.ref generation) rows = [.closed row.workKey round.id] := by
  have applied : (rows.any fun other => row.ref.Holds other) = true :=
    List.any_eq_true.mpr ⟨stored, isRow, decide_eq_true holds⟩
  rw [closedBy, if_pos applied]

theorem Sound.onlyCoveredAfterFetch (sound : s.Sound) : s.OnlyCoveredAfterFetch := by
  intro row stored push marked
  have found := s.leases.table.lawful.findWork_of_mem stored
  exact (sound.settled row.workKey row found push).covered marked

theorem Sound.noneDropped (sound : s.Sound) : s.NoneDropped := by
  intro workKey committed
  obtain ⟨push, stored⟩ := (sound.committed workKey).mp committed
  obtain ⟨row, found⟩ := Option.isSome_iff_exists.mp stored
  have key := workKey_of_findWork found
  refine ⟨row, mem_of_findWork found, key, ?_⟩
  rw [← key]
  rcases sound.settled workKey row found push with pending | covered | ⟨done, -, closed⟩
  · exact .inl pending
  · exact .inr (.inl covered)
  · exact .inr (.inr ⟨done, closed⟩)

variable [DecidableEq W]

theorem Sound.put (sound : s.Sound) (w : W) {round : Option Round}
    (kept : ∀ current ∈ round, current.Sound s.leases s.log) :
    (s.put w round).Sound where
  consistent := sound.consistent
  rooted := sound.rooted
  committed := sound.committed
  settled := sound.settled
  rounds := by
    intro other current here
    change current ∈ Function.update s.current w round other at here
    by_cases same : other = w
    · subst same
      rw [Function.update_self] at here
      exact kept current here
    · rw [Function.update_of_ne same] at here
      exact sound.rounds other current here

variable {w : W}

/-- Completing what has been listed closes intents that the fetch has covered. -/
theorem Sound.completeCovered {next : Rounds W} (sound : s.Sound) {assign : AssignOutcome}
    (here : s.current w = some ⟨id, caller, .completing coverable assign⟩)
    (acted : s.act (.statement (.completeCoveredRefreshWorks coverable caller.leaseToken) now)
      (coveredBy ⟨id, caller, .completing coverable assign⟩ coverable s.leases.table.rows) =
        some next) : (next.put w (some ⟨id, caller, .sampling assign⟩)).Sound := by
  obtain ⟨valid, ordered, held⟩ := sound.rounds w _ here
  have covers : ∀ row, findWork row.workKey s.leases.table.rows = some row →
      Coverable coverable caller.leaseToken row →
        .covered row.workKey id ∈
          coveredBy ⟨id, caller, .completing coverable assign⟩ coverable s.leases.table.rows := by
    intro row found meets
    refine List.mem_map.mpr ⟨row, List.mem_filter.mpr ⟨mem_of_findWork found, ?_⟩, rfl⟩
    exact decide_eq_true meets
  obtain ⟨kept, more, stepped, log, -⟩ := sound.act acted
    (by simp [coveredBy, Action.commits])
    (by
      rintro statement now ⟨⟩ row found - settled
      simp only [Statement.updated]
      split
      next meets =>
        refine .inr (.inl ⟨⟨rfl, rfl⟩, id, ?_⟩)
        exact sublist_append_of_mem (ordered row.workKey meets.2.1) (covers row found meets)
      next => exact settled.append _)
  apply kept.put w
  rintro current ⟨⟩
  refine ⟨valid.extends more, ?_⟩
  exact Caller.heldIn_nil_of_covered sound.consistent sound.rooted valid held stepped

/-- An acknowledgement closes an intent only after a round that has found its space unnumbered. -/
theorem Sound.acknowledge {next : Rounds W} (sound : s.Sound) {outcome : Option PrepareOutcome}
    (here : s.current w = some ⟨id, .runner row, .ended outcome⟩) {availableAt : Instant}
    (acted : s.act (.statement (acknowledgement row availableAt outcome) now)
      (closedBy ⟨id, .runner row, .ended outcome⟩ row (acknowledgement row availableAt outcome)
        s.leases.table.rows) = some next) : (next.put w none).Sound := by
  obtain ⟨valid, stage⟩ := sound.rounds w _ here
  dsimp only at valid stage
  have released : ∀ release : Release, release.state = .ready ∨ release.state = .retry →
      ∀ stored : WorkRow, stored.Settled s.log →
        ((Statement.releaseWork row.ref release).updated now stored).Settled (s.log ++ []) := by
    intro release open_ stored settled
    simp only [Statement.updated]
    split
    · exact WorkRow.settled_release release open_
    · exact settled.append []
  have kept := sound.act acted
    (by
      intro workKey
      rcases outcome with - | (assign | reason | reason | reason) <;>
        simp [acknowledgement, closedBy, Action.commits])
    (by
      rintro statement now ⟨⟩ stored found - settled
      rcases outcome with - | (assign | reason | reason | reason)
      · exact released _ (.inr rfl) stored settled
      · -- the round has covered the work, so its lease is gone
        have lost : ¬ row.ref.Holds stored := fun holds =>
          absurd (stage ⟨stored, mem_of_findWork found, holds⟩) List.not_mem_nil
        simp only [acknowledgement, Statement.updated, lost, if_false]
        exact settled.append _
      · simp only [acknowledgement, Statement.updated]
        split
        next holds =>
          by_cases newer : row.requestedGeneration < stored.requestedGeneration
          · exact .inl (.inl (by simp [WorkRow.complete, newer]))
          · refine .inr (.inr ⟨by simp [WorkRow.complete, newer], rfl, id, ?_⟩)
            have key : stored.workKey = row.workKey := holds.1
            have closed := closedBy_of_holds ⟨id, .runner row, .ended (some (.skipped reason))⟩
              row.requestedGeneration (mem_of_findWork found) holds
            change ([Event.committed stored.workKey, _, .closed stored.workKey id]).Sublist _
            rw [closed, key]
            exact sublist_append_of_mem (stage row rfl) (List.mem_singleton_self _)
        next => exact settled.append _
      · exact released _ (.inl rfl) stored settled
      · exact released _ (.inr rfl) stored settled)
  exact kept.1.put w fun _ gone => by cases gone

theorem Sound.step {next : Rounds W} (sound : s.Sound) {turn : Turn W}
    (stepped : s.step turn = some next) : next.Sound := by
  cases turn <;> simp only [Rounds.step] at stepped
  case outside action =>
    split at stepped
    next outside =>
      refine (sound.act stepped (fun _ => Iff.rfl) ?_).1
      rintro statement now rfl row - push settled
      exact (settled_updated outside now push settled).append _
    next => cases stepped
  case enter w caller =>
    split at stepped
    next =>
      split at stepped
      next enters =>
        cases stepped
        have counted : { s with begun := s.begun + 1 }.Sound :=
          ⟨sound.consistent, sound.rooted, sound.committed, sound.settled, sound.rounds⟩
        apply counted.put w
        rintro current ⟨⟩
        cases caller with
        | runner row => exact ⟨enters, trivial⟩
        | event => exact ⟨trivial, trivial⟩
      next => cases stepped
    next => cases stepped
  case move w move =>
    split at stepped
    next => cases stepped
    next round here =>
      obtain ⟨⟨stage, events⟩, moved, rfl⟩ := Option.map_eq_some_iff.mp stepped
      obtain ⟨others, kept⟩ := sound.next (sound.rounds w round here) moved
      apply (sound.logged others).put w
      rintro current ⟨⟩
      exact kept
  case completeCovered w now =>
    split at stepped
    next id caller coverable assign here =>
      obtain ⟨acted, done, rfl⟩ := Option.map_eq_some_iff.mp stepped
      exact sound.completeCovered here done
    next => cases stepped
  case acknowledge w now availableAt =>
    split at stepped
    next id row outcome here =>
      obtain ⟨acted, done, rfl⟩ := Option.map_eq_some_iff.mp stepped
      exact sound.acknowledge here done
    next =>
      cases stepped
      exact sound.put w fun _ gone => by cases gone
    next => cases stepped
  case crash w =>
    cases stepped
    exact sound.put w fun _ gone => by cases gone

end Rounds

/-- A push arrives, and its repository is archived before a runner enters with the work. -/
def archivedPush : List (Rounds.Turn Unit) :=
  let push : EnqueueRefreshInput := ⟨"d1", 1, "main", "{}"⟩
  let claimed : WorkRow := (push.fresh 0).lease (fun _ => "t1") 60000
  [.outside (.statement (.enqueueRefreshWork push) 0),
    .outside (.claimDueWork ⟨[.refresh, .project], 8, 60000⟩ (fun _ => false) (fun _ => "t1") 0),
    .enter () (.runner claimed), .move () (.findRepositoryById (some ⟨.archived, ["main"]⟩)),
    .acknowledge () 1 1]

end PrSearch.Work
