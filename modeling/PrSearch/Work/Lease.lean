import PrSearch.Lib.Automaton
import PrSearch.Work.Store

/-! # Leases and requests

Any number of workers request work, claim it, keep their leases alive and acknowledge, in any order
and with any clock readings. Beside the table the state keeps every row as a claim returned it: that
is what a worker acknowledges with. A row has at most one lease that holds, and an acknowledgement
with another changes nothing. A request that arrives during a lease survives every way out of the
lease but two: a release to `parked` or `obsolete` does not look at the generation again.
-/
namespace PrSearch.Work

open Sequence (Instant)

/-- The table, and the rows that claims have returned, the latest first. -/
structure Leases where
  table : Table
  claimed : List WorkRow

/-- What a claimed row is acknowledged with. -/
def WorkRow.ref (claim : WorkRow) : LeaseRef := ⟨claim.workKey, claim.leaseToken.getD ""⟩

variable {row : WorkRow} {s next : Leases} {workKey : WorkKey} {last : Option WorkRow}
  {now : Instant} {statement : Statement}

theorem token_of_holds {stored : WorkRow} (leased : row.leaseToken.isSome)
    (holds : row.ref.Holds stored) : stored.leaseToken = row.leaseToken := by
  obtain ⟨token, has⟩ := Option.isSome_iff_exists.mp leased
  rw [holds.2.1, WorkRow.ref, has, Option.getD_some]

/-- A step of some worker. -/
inductive Action
  | statement (statement : Statement) (now : Instant)
  | claimDueWork (options : ClaimOptions) (locked : WorkKey → Bool)
      (genRandomUuid : WorkKey → String) (now : Instant)

namespace Leases

def initial : Leases := ⟨.empty, []⟩

/-- `completeWork` is called with the generation that the claim returned. -/
def Calls (s : Leases) : Statement → Prop
  | .completeWork lease generation =>
      ∃ claim ∈ s.claimed, claim.ref = lease ∧ claim.requestedGeneration = generation
  | _ => True

instance (s : Leases) : DecidablePred s.Calls
  | .completeWork .. => inferInstanceAs (Decidable (∃ _ ∈ _, _))
  | .enqueueRefreshWork .. | .requestWork .. | .releaseWork .. | .updateWorkProgress ..
  | .heartbeatWork .. | .reclaimExpiredLeases | .completeCoveredRefreshWorks .. =>
      inferInstanceAs (Decidable True)

/-- `gen_random_uuid()` repeats no token. -/
def Fresh (s : Leases) (claims : List WorkRow) : Prop :=
  ((claims ++ s.claimed).map WorkRow.leaseToken).Nodup

instance (s : Leases) (claims : List WorkRow) : Decidable (s.Fresh claims) :=
  inferInstanceAs (Decidable (List.Nodup _))

def step (s : Leases) : Action → Option Leases
  | .statement statement now =>
      if s.Calls statement then
        (accept (statement.run now s.table.rows)).map fun table => { s with table := table }
      else none
  | .claimDueWork options locked genRandomUuid now =>
      let (claims, rows) := Work.claimDueWork options locked genRandomUuid now s.table.rows
      if s.Fresh claims then
        (accept rows).map fun table => ⟨table, claims ++ s.claimed⟩
      else none

end Leases

def leasing : Automaton Leases Action := ⟨Leases.step⟩

variable {claim : WorkRow} {options : ClaimOptions} {locked : WorkKey → Bool}
  {genRandomUuid : WorkKey → String} {action : Action}

/-! ### What is promised -/

namespace Leases

def Live (s : Leases) (lease : LeaseRef) : Prop := ∃ row ∈ s.table.rows, lease.Holds row

/-- The last claim of a key. -/
def lastClaim (s : Leases) (workKey : WorkKey) : Option WorkRow := findWork workKey s.claimed

def OneLiveLease (s : Leases) : Prop :=
  ∀ a ∈ s.claimed, ∀ b ∈ s.claimed, a.workKey = b.workKey → s.Live a.ref → s.Live b.ref → a = b

/-- A lease that does not hold writes nothing, and is told so. -/
def StaleLeasesWriteNothing (s : Leases) : Prop :=
  ∀ lease, ¬ s.Live lease → ∀ now : Instant,
    (∀ generation, completeWork lease generation now s.table.rows = (false, s.table.rows)) ∧
    (∀ next, releaseWork lease next s.table.rows = (false, s.table.rows)) ∧
    (∀ progress, updateWorkProgress lease progress s.table.rows = (false, s.table.rows)) ∧
    ∀ leaseMs, heartbeatWork lease leaseMs now s.table.rows = (false, s.table.rows)

/-- A request made after the last claim is still going to be claimed. -/
def Unburied (s : Leases) : Prop :=
  ∀ row ∈ s.table.rows, ∀ claim ∈ s.lastClaim row.workKey,
    claim.requestedGeneration < row.requestedGeneration →
      row.state = .leased ∨ row.state = .ready ∨ row.state = .retry

/-- A lease is released to `parked` or `obsolete` only while its row counts no request that the
claim did not see. -/
def Attentive (s : Leases) : Action → Prop
  | .statement (.releaseWork lease next) _ =>
      next.state = .parked ∨ next.state = .obsolete →
        ∀ row ∈ s.table.rows, lease.Holds row → ∀ claim ∈ s.claimed, claim.ref = lease →
          row.requestedGeneration ≤ claim.requestedGeneration
  | _ => True

/-! ### The invariant -/

/-- What the row of a key has in common with the key's last claim. -/
structure Agrees (last : Option WorkRow) (row : WorkRow) : Prop where
  holder : row.state = .leased → ∃ claim ∈ last, claim.leaseToken = row.leaseToken
  positive : 1 ≤ row.requestedGeneration
  refresh : row.kind = .refresh → ∃ deliveryId, row.workKey = .push deliveryId
  once : ∀ deliveryId, row.workKey = .push deliveryId → row.requestedGeneration = 1

structure Consistent (s : Leases) : Prop where
  tokens : (s.claimed.map WorkRow.leaseToken).Nodup
  claims : ∀ claim ∈ s.claimed, claim.leaseToken.isSome ∧ 1 ≤ claim.requestedGeneration
  rows : ∀ workKey row, findWork workKey s.table.rows = some row →
    Agrees (s.lastClaim workKey) row

/-- `Unburied`, of one row. -/
def Waits (last : Option WorkRow) (row : WorkRow) : Prop :=
  ∀ claim ∈ last, claim.requestedGeneration < row.requestedGeneration →
    row.state = .leased ∨ row.state = .ready ∨ row.state = .retry

theorem unburied_iff (s : Leases) :
    s.Unburied ↔ ∀ workKey row, findWork workKey s.table.rows = some row →
      Waits (s.lastClaim workKey) row := by
  constructor
  · intro unburied workKey row found
    have waits := unburied row (mem_of_findWork found)
    rwa [workKey_of_findWork found] at waits
  · intro waits row stored
    exact waits row.workKey row (s.table.lawful.findWork_of_mem stored)

theorem consistent_initial : initial.Consistent where
  tokens := .nil
  claims := List.forall_mem_nil _
  rows := fun _ _ found => by cases found

theorem unburied_initial : initial.Unburied := List.forall_mem_nil _

theorem mem_of_lastClaim (last : s.lastClaim workKey = some claim) : claim ∈ s.claimed := mem_of_findWork last

theorem Consistent.eq_of_token (consistent : s.Consistent) {a b : WorkRow} (first : a ∈ s.claimed)
    (second : b ∈ s.claimed) (same : a.leaseToken = b.leaseToken) : a = b :=
  List.inj_on_of_nodup_map consistent.tokens first second same

/-- The claim whose lease holds on a row is the last claim of its key. -/
theorem Consistent.lastClaim_of_holds (consistent : s.Consistent)
    (found : findWork workKey s.table.rows = some row) (made : claim ∈ s.claimed)
    (holds : claim.ref.Holds row) : s.lastClaim workKey = some claim := by
  obtain ⟨holder, last, token⟩ := (consistent.rows workKey row found).holder holds.2.2
  have held := token_of_holds (consistent.claims claim made).1 holds
  have same := consistent.eq_of_token (mem_of_lastClaim last) made (token.trans held)
  rw [← same]
  exact last

/-! ### One step, one row -/

theorem agrees_fresh_refresh (last : Option WorkRow) (input : EnqueueRefreshInput) (now : Instant) :
    Agrees last (input.fresh now) where
  holder := fun leased => by cases leased
  positive := Nat.le_refl 1
  refresh := fun _ => ⟨input.deliveryId, rfl⟩
  once := fun _ _ => rfl

theorem agrees_fresh_request (last : Option WorkRow) (input : RequestWorkInput) (now : Instant) :
    Agrees last (input.fresh now) where
  holder := fun leased => by cases leased
  positive := Nat.le_refl 1
  refresh := fun refresh => absurd refresh input.notRefresh
  once := fun _ push => by cases push

/-- A row that keeps its identity and its generation, and its lease unless it loses it. -/
theorem Agrees.of_kept {next : WorkRow} (agrees : Agrees last row)
    (key : next.workKey = row.workKey) (kind : next.kind = row.kind)
    (generation : next.requestedGeneration = row.requestedGeneration)
    (lease : next.state = .leased → row.state = .leased ∧ next.leaseToken = row.leaseToken) :
    Agrees last next where
  holder := fun leased => by
    obtain ⟨was, token⟩ := lease leased
    rw [token]
    exact agrees.holder was
  positive := by
    rw [generation]
    exact agrees.positive
  refresh := by
    rw [kind, key]
    exact agrees.refresh
  once := by
    rw [key, generation]
    exact agrees.once

theorem agrees_again {input : RequestWorkInput} (agrees : Agrees last row)
    (key : row.workKey = input.workKey) :
    Agrees last (input.again now row) where
  holder := fun leased => by
    have was : row.state = .leased := by
      by_contra other
      simp [RequestWorkInput.again, other] at leased
    exact agrees.holder was
  positive := Nat.le_add_left 1 row.requestedGeneration
  refresh := agrees.refresh
  once := fun deliveryId push => by
    -- a request is never for a push key
    have other : input.workKey = .push deliveryId := key.symm.trans push
    cases other

theorem agrees_complete (agrees : Agrees last row) (generation : Nat) (now : Instant) :
    Agrees last (row.complete generation now) :=
  agrees.of_kept rfl rfl rfl fun leased => by
    simp only [WorkRow.complete] at leased
    split at leased <;> cases leased

theorem agrees_release (agrees : Agrees last row) (next : Release) :
    Agrees last (row.release next) :=
  agrees.of_kept rfl rfl rfl fun leased => by
    cases state : next.state <;> simp [WorkRow.release, ReleaseState.workState, state] at leased

theorem agrees_inserted (inserted : statement.inserted now workKey = some row) :
    Agrees last row := by
  rcases Statement.inserted_cases inserted with ⟨input, -, rfl⟩ | ⟨input, -, rfl⟩
  · exact agrees_fresh_refresh last input now
  · exact agrees_fresh_request last input now

theorem agrees_updated (agrees : Agrees last row) (statement : Statement) (now : Instant) :
    Agrees last (statement.updated now row) := by
  cases statement with
  | enqueueRefreshWork input => exact agrees
  | requestWork input =>
    simp only [Statement.updated]
    split
    next same => exact agrees_again agrees same
    · exact agrees
  | completeWork lease generation =>
    simp only [Statement.updated]
    split
    · exact agrees_complete agrees generation now
    · exact agrees
  | releaseWork lease next =>
    simp only [Statement.updated]
    split
    · exact agrees_release agrees next
    · exact agrees
  | updateWorkProgress | heartbeatWork =>
    simp only [Statement.updated]
    split
    · exact agrees.of_kept rfl rfl rfl fun leased => ⟨leased, rfl⟩
    · exact agrees
  | reclaimExpiredLeases | completeCoveredRefreshWorks =>
    simp only [Statement.updated]
    split
    · exact agrees.of_kept rfl rfl rfl fun leased => by cases leased
    · exact agrees

/-- A new lease is that of the new last claim. -/
theorem agrees_lease (agrees : Agrees last row) (genRandomUuid : WorkKey → String)
    (leaseUntil : Instant) :
    Agrees (some (row.lease genRandomUuid leaseUntil)) (row.lease genRandomUuid leaseUntil) where
  holder := fun _ => ⟨_, rfl, rfl⟩
  positive := agrees.positive
  refresh := agrees.refresh
  once := agrees.once

theorem waits_inserted (inserted : statement.inserted now workKey = some row) : Waits last row := by
  intro claim _ _
  rcases Statement.inserted_cases inserted with ⟨input, -, rfl⟩ | ⟨input, -, rfl⟩ <;>
    exact .inr (.inl rfl)

/-- The statements keep a row waiting: an acknowledgement compares the generation of its claim, a
careless release apart. -/
theorem waits_updated (agrees : Agrees last row) (waits : Waits last row)
    (positive : ∀ claim ∈ last, 1 ≤ claim.requestedGeneration)
    (completed : ∀ lease generation, statement = .completeWork lease generation →
      lease.Holds row → ∀ claim ∈ last, claim.requestedGeneration = generation)
    (released : ∀ lease next, statement = .releaseWork lease next → lease.Holds row →
      (next.state = .parked ∨ next.state = .obsolete) →
        ∀ claim ∈ last, row.requestedGeneration ≤ claim.requestedGeneration) :
    Waits last (statement.updated now row) := by
  intro claim isLast newer
  cases statement with
  | enqueueRefreshWork input => exact waits claim isLast newer
  | requestWork input =>
    simp only [Statement.updated] at newer ⊢
    split at newer
    next same =>
      simp only [RequestWorkInput.again, same, if_true]
      split
      · exact .inl rfl
      · exact .inr (.inl rfl)
    next different =>
      simp only [different, if_false]
      exact waits claim isLast newer
  | completeWork lease generation =>
    simp only [Statement.updated] at newer ⊢
    split at newer
    next holds =>
      have seen := completed lease generation rfl holds claim isLast
      simp only [WorkRow.complete] at newer
      rw [seen] at newer
      simp [holds, WorkRow.complete, newer]
    next stale =>
      simp only [stale, if_false]
      exact waits claim isLast newer
  | releaseWork lease next =>
    simp only [Statement.updated] at newer ⊢
    split at newer
    next holds =>
      simp only [holds, if_true, WorkRow.release]
      cases state : next.state with
      | retry => exact .inr (.inr rfl)
      | ready => exact .inr (.inl rfl)
      | parked =>
        have seen := released lease next rfl holds (.inl state) claim isLast
        exact absurd newer (Nat.not_lt.mpr seen)
      | obsolete =>
        have seen := released lease next rfl holds (.inr state) claim isLast
        exact absurd newer (Nat.not_lt.mpr seen)
    next stale =>
      simp only [stale, if_false]
      exact waits claim isLast newer
  | updateWorkProgress | heartbeatWork =>
    simp only [Statement.updated] at newer ⊢
    split at newer
    next holds => exact .inl (by simp [holds, holds.2.2])
    next stale =>
      simp only [stale, if_false]
      exact waits claim isLast newer
  | reclaimExpiredLeases =>
    simp only [Statement.updated] at newer ⊢
    split at newer
    next expired => exact .inr (.inr (by simp [expired, WorkRow.reclaim]))
    next running =>
      simp only [running, if_false]
      exact waits claim isLast newer
  | completeCoveredRefreshWorks workKeys leaseToken =>
    simp only [Statement.updated] at newer ⊢
    split at newer
    next coverable =>
      -- a refresh row counts one request only, and its claim has seen it
      obtain ⟨deliveryId, push⟩ := agrees.refresh coverable.1
      have once := agrees.once deliveryId push
      have seen := positive claim isLast
      have still : claim.requestedGeneration < row.requestedGeneration := newer
      omega
    next other =>
      simp only [other, if_false]
      exact waits claim isLast newer

/-! ### Steps of the system -/

theorem step_statement (stepped : s.step (.statement statement now) = some next) :
    s.Calls statement ∧ next.claimed = s.claimed ∧
      next.table.rows = statement.run now s.table.rows := by
  simp only [step] at stepped
  split at stepped
  next calls =>
    obtain ⟨table, accepted, rfl⟩ := Option.map_eq_some_iff.mp stepped
    exact ⟨calls, rfl, accept_rows accepted⟩
  · cases stepped

theorem step_claim (stepped : s.step (.claimDueWork options locked genRandomUuid now) = some next) :
    s.Fresh (Work.claimDueWork options locked genRandomUuid now s.table.rows).1 ∧
      next.claimed =
        (Work.claimDueWork options locked genRandomUuid now s.table.rows).1 ++ s.claimed ∧
      next.table.rows = (Work.claimDueWork options locked genRandomUuid now s.table.rows).2 := by
  simp only [step] at stepped
  split at stepped
  next fresh =>
    obtain ⟨table, accepted, rfl⟩ := Option.map_eq_some_iff.mp stepped
    exact ⟨fresh, rfl, accept_rows accepted⟩
  · cases stepped

/-- After a claim the row of a key is the new last claim, or neither has changed. -/
theorem step_claim_row
    (stepped : s.step (.claimDueWork options locked genRandomUuid now) = some next)
    (found : findWork workKey next.table.rows = some row) :
    (∃ old, findWork workKey s.table.rows = some old ∧
        row = old.lease genRandomUuid (now + options.leaseMs) ∧
        next.lastClaim workKey = some row) ∨
      (findWork workKey s.table.rows = some row ∧
        next.lastClaim workKey = s.lastClaim workKey) := by
  obtain ⟨-, claimed, rows⟩ := step_claim stepped
  have last : next.lastClaim workKey =
      (((findWork workKey s.table.rows).filter fun row =>
        row ∈ options.select locked now s.table.rows).map
          (WorkRow.lease genRandomUuid (now + options.leaseMs))).or (s.lastClaim workKey) := by
    rw [lastClaim, claimed, findWork_append, findWork_claims s.table.lawful]
    rfl
  rw [rows, findWork_claimDueWork] at found
  obtain ⟨old, before, leased⟩ := Option.map_eq_some_iff.mp found
  rw [before] at last
  by_cases selected : old ∈ options.select locked now s.table.rows
  · left
    simp only [selected, if_true] at leased
    simp only [Option.filter, selected, decide_true, if_true, Option.map_some, Option.some_or] at last
    exact ⟨old, before, leased.symm, leased ▸ last⟩
  · right
    simp only [selected, if_false] at leased
    simp only [Option.filter, selected, decide_false, Bool.false_eq_true, if_false, Option.map_none,
      Option.none_or] at last
    exact ⟨leased ▸ before, last⟩

theorem Consistent.step (consistent : s.Consistent) (stepped : s.step action = some next) :
    next.Consistent := by
  cases action with
  | statement statement now =>
    obtain ⟨-, claimed, rows⟩ := step_statement stepped
    constructor
    · exact claimed ▸ consistent.tokens
    · exact claimed ▸ consistent.claims
    · intro workKey row found
      rw [rows] at found
      rw [lastClaim, claimed]
      rcases findWork_run_cases found with ⟨-, inserted⟩ | ⟨old, before, rfl⟩
      · exact agrees_inserted inserted
      · exact agrees_updated (consistent.rows workKey old before) statement now
  | claimDueWork options locked genRandomUuid now =>
    obtain ⟨fresh, claimed, rows⟩ := step_claim stepped
    constructor
    · rw [claimed]
      exact fresh
    · intro claim made
      rw [claimed] at made
      rcases List.mem_append.mp made with new | earlier
      · obtain ⟨row, -, stored, -, rfl⟩ := mem_claimDueWork new
        have agrees := consistent.rows row.workKey row (s.table.lawful.findWork_of_mem stored)
        exact ⟨rfl, agrees.positive⟩
      · exact consistent.claims claim earlier
    · intro workKey row found
      rcases step_claim_row stepped found with ⟨old, before, rfl, last⟩ | ⟨before, last⟩
      · rw [last]
        exact agrees_lease (consistent.rows workKey old before) genRandomUuid _
      · rw [last]
        exact consistent.rows workKey row before

/-- A step leaves every request waiting exactly when it is attentive. -/
theorem Consistent.unburied_step_iff (consistent : s.Consistent) (unburied : s.Unburied)
    (stepped : s.step action = some next) : next.Unburied ↔ s.Attentive action := by
  rw [unburied_iff] at unburied ⊢
  cases action with
  | statement statement now =>
    obtain ⟨calls, claimed, rows⟩ := step_statement stepped
    constructor
    · intro waits
      cases statement with
      | releaseWork lease release =>
        intro careless row stored holds claim made ref
        have found := s.table.lawful.findWork_of_mem stored
        have last := consistent.lastClaim_of_holds found made (ref ▸ holds)
        have after : findWork row.workKey next.table.rows = some (row.release release) := by
          rw [rows, findWork_run, found]
          simp [Statement.effect, Statement.updated, holds]
        rw [← claimed] at made
        by_contra unseen
        have sameLast : next.lastClaim row.workKey = some claim := by
          rw [lastClaim, claimed]
          exact last
        have state := waits row.workKey _ after claim sameLast (Nat.lt_of_not_le unseen)
        rcases careless with parked | obsolete
        · simp [WorkRow.release, ReleaseState.workState, parked] at state
        · simp [WorkRow.release, ReleaseState.workState, obsolete] at state
      | enqueueRefreshWork | requestWork | completeWork | updateWorkProgress | heartbeatWork
      | reclaimExpiredLeases | completeCoveredRefreshWorks => trivial
    · intro attentive workKey row found
      rw [rows] at found
      rw [lastClaim, claimed]
      rcases findWork_run_cases found with ⟨-, inserted⟩ | ⟨old, before, rfl⟩
      · exact waits_inserted inserted
      · apply waits_updated (consistent.rows workKey old before) (unburied workKey old before)
        · intro claim last
          exact (consistent.claims claim (mem_of_lastClaim last)).2
        · rintro lease generation rfl holds claim last
          obtain ⟨acked, made, rfl, rfl⟩ := calls
          have same := consistent.lastClaim_of_holds before made holds
          have equal : acked = claim := Option.mem_unique same last
          rw [equal]
        · rintro lease release rfl holds careless claim last
          have key : claim.workKey = workKey := workKey_of_findWork last
          have made := mem_of_lastClaim last
          -- the lease that holds is the one of the last claim
          obtain ⟨holder, isLast, token⟩ := (consistent.rows workKey old before).holder holds.2.2
          have same : holder = claim := Option.mem_unique isLast last
          subst same
          have ref : holder.ref = lease := by
            have oldKey := workKey_of_findWork before
            rw [WorkRow.ref, token, holds.2.1, key, ← oldKey, holds.1]
            rfl
          exact attentive careless old (mem_of_findWork before) holds holder made ref
  | claimDueWork options locked genRandomUuid now =>
    constructor
    · exact fun _ => trivial
    · intro _ workKey row found
      rcases step_claim_row stepped found with ⟨old, before, rfl, last⟩ | ⟨before, last⟩
      · intro claim isLast newer
        rw [last] at isLast
        cases isLast
        exact absurd newer (Nat.lt_irrefl _)
      · rw [last]
        exact unburied workKey row before

/-! ### Every run -/

theorem Consistent.oneLiveLease (consistent : s.Consistent) : s.OneLiveLease := by
  intro a firstMade b secondMade key firstLive secondLive
  obtain ⟨row, stored, firstHolds⟩ := firstLive
  obtain ⟨other, otherStored, secondHolds⟩ := secondLive
  have found := s.table.lawful.findWork_of_mem stored
  have otherFound := s.table.lawful.findWork_of_mem otherStored
  have sameKey : row.workKey = other.workKey := by
    rw [firstHolds.1, secondHolds.1]
    exact key
  rw [sameKey, otherFound] at found
  cases found
  have first := consistent.lastClaim_of_holds otherFound firstMade firstHolds
  have second := consistent.lastClaim_of_holds otherFound secondMade secondHolds
  rw [first] at second
  cases second
  rfl

theorem updateHeld_stale {lease : LeaseRef} {rows : List WorkRow}
    (stale : ¬ ∃ row ∈ rows, lease.Holds row) (set : WorkRow → WorkRow) :
    updateHeld lease set rows = (false, rows) := by
  have none_holds : ∀ row ∈ rows, ¬ lease.Holds row := fun row stored holds =>
    stale ⟨row, stored, holds⟩
  have answer : (rows.any fun row => lease.Holds row) = false := by
    simpa using none_holds
  have kept : (rows.map fun row => if lease.Holds row then set row else row) = rows := by
    rw [List.map_congr_left (g := id)]
    · exact List.map_id rows
    · intro row stored
      simp [none_holds row stored]
  rw [updateHeld, answer, kept]

theorem staleLeasesWriteNothing (s : Leases) : s.StaleLeasesWriteNothing := by
  intro lease stale now
  exact ⟨fun _ => updateHeld_stale stale _, fun _ => updateHeld_stale stale _,
    fun _ => updateHeld_stale stale _, fun _ => updateHeld_stale stale _⟩

end Leases

/-- In every interleaving a key has at most one live lease, and leases that do not hold write
nothing. No request is buried in a run exactly when all its releases are attentive. -/
theorem leases_and_requests (actions : List Action) :
    (∀ s ∈ leasing.visited actions .initial, s.OneLiveLease ∧ s.StaleLeasesWriteNothing) ∧
      ((∀ s ∈ leasing.visited actions .initial, s.Unburied) ↔
        ∀ turn ∈ leasing.taken actions .initial, turn.1.Attentive turn.2) := by
  have consistent : ∀ s a next, Leases.Consistent s → leasing.step s a = some next →
      next.Consistent := fun s a next kept stepped => kept.step stepped
  constructor
  · intro s reached
    have kept := Automaton.visited_of_step consistent Leases.consistent_initial s reached
    exact ⟨kept.oneLiveLease, s.staleLeasesWriteNothing⟩
  · apply Automaton.visited_iff_taken consistent
    · intro s a next kept unburied stepped
      exact kept.unburied_step_iff unburied stepped
    · exact Leases.consistent_initial
    · exact Leases.unburied_initial

instance (s : Leases) : Decidable s.Unburied :=
  inferInstanceAs (Decidable (∀ row ∈ s.table.rows, ∀ claim ∈ s.lastClaim row.workKey, _ → _))

/-- The document of pull request 7 has been missing four times; while the fifth attempt runs, its
snapshot arrives and asks for the projection again; the attempt still parks the row. -/
def parkedProjection : List Action :=
  let snapshot : RequestWorkInput :=
    { kind := .project, repositoryId := 1, baseBranch := "main", seqEpoch := 1, payload := "doc",
      keyExtra := [.text "pr", .number 7] }
  let claim (attempt : Nat) : Action :=
    .claimDueWork ⟨[.project], 8, 60000⟩ (fun _ => false) (fun _ => toString attempt)
      (1000000 * attempt)
  let lease (attempt : Nat) : LeaseRef := ⟨snapshot.workKey, toString attempt⟩
  let missing (attempt : Nat) : List Action :=
    [claim attempt, .statement (.releaseWork (lease attempt)
      ⟨.retry, 1000000 * attempt + 1000, some "document_missing", false⟩) (1000000 * attempt)]
  [.statement (.requestWork snapshot) 0] ++ missing 1 ++ missing 2 ++ missing 3 ++ missing 4 ++
    [claim 5, .statement (.requestWork snapshot) 5000001,
      .statement (.releaseWork (lease 5) ⟨.parked, 5300002, some "document_missing", false⟩) 5000002]

theorem parkedProjection_buries :
    ¬ ∀ actions, ∀ s ∈ leasing.visited actions .initial,
      s.OneLiveLease ∧ s.StaleLeasesWriteNothing ∧ s.Unburied := by
  intro promised
  have buried : ∃ s ∈ leasing.visited parkedProjection .initial, ¬ s.Unburied := by
    decide
  obtain ⟨s, reached, request⟩ := buried
  exact request (promised parkedProjection s reached).2.2

end PrSearch.Work
