import Mathlib.Algebra.Ring.Nat
import PrSearch.Work.Runner

/-! # One executor per work key

When the turn of every row comes while the lease of its claim covers the time to the first
heartbeat, the lease of a row holds from its claim to its acknowledgement: nobody else claims the
row, and no two runners are inside `runOne` for its key. A row that has waited longer than that may
have been reclaimed and claimed by another runner, and its own runner starts it all the same.
-/
namespace PrSearch.Work

open Sequence (Instant WorkKind)

/-! ### What a statement leaves of a lease -/

/-- The statement ends or prolongs this lease. -/
def Statement.Acks (lease : LeaseRef) : Statement → Prop
  | completeWork other _ | releaseWork other _ | heartbeatWork other _ => other = lease
  | completeCoveredRefreshWorks _ leaseToken => leaseToken = some lease.leaseToken
  | _ => False

variable {statement : Statement} {lane lane' : Lane} {run : Running} {row : WorkRow} {i : Nat}
  {queue : List WorkRow} {locked : WorkKey → Bool} {genRandomUuid : WorkKey → String}

variable {lease : LeaseRef} {stored a b : WorkRow} {now leaseUntil : Instant}
  {claimed rows : List WorkRow} {i' : Nat} {workKey : WorkKey} {p : WorkRow → Prop}
  {options : ClaimOptions} {ending : Ending}

theorem LeaseRef.Holds.updated (holds : lease.Holds stored) (others : ¬ statement.Acks lease)
    (alive : ¬ stored.Expired now) :
    lease.Holds (statement.updated now stored) ∧
      (statement.updated now stored).leaseUntil = stored.leaseUntil := by
  have otherLease : ∀ other : LeaseRef, other ≠ lease → ¬ other.Holds stored := by
    intro other different both
    have key : other.workKey = lease.workKey := both.1.symm.trans holds.1
    have token : other.leaseToken = lease.leaseToken :=
      Option.some.inj (both.2.1.symm.trans holds.2.1)
    cases other
    cases lease
    exact different (by simp_all)
  cases statement with
  | enqueueRefreshWork input => exact ⟨holds, rfl⟩
  | requestWork input =>
    simp only [Statement.updated]
    split
    · exact ⟨⟨holds.1, holds.2.1, by simp [RequestWorkInput.again, holds.2.2]⟩, rfl⟩
    · exact ⟨holds, rfl⟩
  | completeWork other generation =>
    simp only [Statement.updated, otherLease other others, if_false]
    exact ⟨holds, trivial⟩
  | releaseWork other next =>
    simp only [Statement.updated, otherLease other others, if_false]
    exact ⟨holds, trivial⟩
  | heartbeatWork other leaseMs =>
    simp only [Statement.updated, otherLease other others, if_false]
    exact ⟨holds, trivial⟩
  | updateWorkProgress other progress =>
    simp only [Statement.updated]
    split
    · exact ⟨holds, rfl⟩
    · exact ⟨holds, rfl⟩
  | reclaimExpiredLeases =>
    simp only [Statement.updated, alive, if_false]
    exact ⟨holds, trivial⟩
  | completeCoveredRefreshWorks workKeys leaseToken =>
    have uncovered : ¬ Coverable workKeys leaseToken stored := by
      rintro ⟨-, -, ready | retry | ⟨-, -, token⟩⟩
      · rw [holds.2.2] at ready
        cases ready
      · rw [holds.2.2] at retry
        cases retry
      · exact others (token.symm.trans holds.2.1)
    simp only [Statement.updated, uncovered, if_false]
    exact ⟨holds, trivial⟩

/-- A closed push row is never opened again. -/
theorem updated_of_closed {deliveryId : String} (push : stored.workKey = .push deliveryId)
    (closed : stored.state = .done) (statement : Statement) (now : Instant) :
    statement.updated now stored = stored := by
  have unheld : ∀ lease : LeaseRef, ¬ lease.Holds stored := by
    intro lease holds
    have leased := holds.2.2
    rw [closed] at leased
    cases leased
  cases statement with
  | enqueueRefreshWork input => rfl
  | requestWork input =>
    have different : stored.workKey ≠ input.workKey := by
      rw [push]
      intro same
      cases same
    simp only [Statement.updated, different, if_false]
  | completeWork | releaseWork | heartbeatWork | updateWorkProgress =>
    simp only [Statement.updated, unheld, if_false]
  | reclaimExpiredLeases =>
    have unexpired : ¬ stored.Expired now := by
      intro expired
      rw [WorkRow.Expired, closed] at expired
      cases expired.1
    simp only [Statement.updated, unexpired, if_false]
  | completeCoveredRefreshWorks workKeys leaseToken =>
    have uncovered : ¬ Coverable workKeys leaseToken stored := by
      intro coverable
      rw [Coverable, closed] at coverable
      rcases coverable.2.2 with ready | retry | leased
      · cases ready
      · cases retry
      · cases leased.1
    simp only [Statement.updated, uncovered, if_false]

theorem ref_ne_of_token (first : a.leaseToken.isSome) (second : b.leaseToken.isSome)
    (different : a.leaseToken ≠ b.leaseToken) : a.ref.leaseToken ≠ b.ref.leaseToken := by
  obtain ⟨token, has⟩ := Option.isSome_iff_exists.mp first
  obtain ⟨other, hasOther⟩ := Option.isSome_iff_exists.mp second
  rw [has, hasOther] at different
  simp only [WorkRow.ref, has, hasOther, Option.getD_some]
  exact fun same => different (congrArg some same)

theorem not_acks_of_unleased (unleased : statement.Unleased) (lease : LeaseRef) :
    ¬ statement.Acks lease := by
  cases statement with
  | completeCoveredRefreshWorks workKeys leaseToken =>
    have without : leaseToken = none := unleased
    intro acks
    rw [Statement.Acks, without] at acks
    cases acks
  | enqueueRefreshWork | requestWork | reclaimExpiredLeases | updateWorkProgress => exact id
  | completeWork | releaseWork | heartbeatWork => exact absurd unleased id

/-! ### Groups of a batch -/

theorem addToSpace_perm (row : WorkRow) (groups : List (String × List WorkRow)) :
    ((addToSpace row groups).flatMap Prod.snd).Perm (groups.flatMap Prod.snd ++ [row]) := by
  induction groups with
  | nil => exact List.Perm.refl _
  | cons group rest ih =>
    obtain ⟨key, rows⟩ := group
    simp only [addToSpace]
    split
    · simp only [List.flatMap_cons, List.append_assoc]
      exact List.Perm.append_left rows List.perm_append_comm
    · simp only [List.flatMap_cons, List.append_assoc]
      exact List.Perm.append_left rows ih

theorem bySpace_perm (claimed : List WorkRow) :
    ((bySpace claimed).flatMap Prod.snd).Perm claimed := by
  have general : ∀ groups : List (String × List WorkRow),
      ((claimed.foldl (fun groups row => addToSpace row groups) groups).flatMap Prod.snd).Perm
        (groups.flatMap Prod.snd ++ claimed) := by
    induction claimed with
    | nil =>
      intro groups
      rw [List.append_nil]
      exact List.Perm.refl _
    | cons row rest ih =>
      intro groups
      have later := ih (addToSpace row groups)
      have first := (addToSpace_perm row groups).append_right rest
      rw [List.append_assoc] at first
      exact later.trans first
  exact general []

/-- The groups hold the rows of the batch, each once. -/
theorem lanesOf_perm (claimed : List WorkRow) :
    ((lanesOf claimed).flatMap Lane.rows).Perm claimed := by
  have sorted : ((lanesOf claimed).flatMap Lane.rows).Perm
      ((bySpace claimed).flatMap Prod.snd) := by
    rw [lanesOf, List.flatMap_map]
    generalize bySpace claimed = groups
    induction groups with
    | nil => exact List.Perm.refl _
    | cons group rest ih =>
      simp only [List.flatMap_cons]
      exact (List.perm_insertionSort _ group.2).append ih
  exact sorted.trans (bySpace_perm claimed)

theorem running_of_mem_lanesOf (made : lane ∈ lanesOf claimed) : lane.running = none := by
  obtain ⟨group, -, rfl⟩ := List.mem_map.mp made
  rfl

theorem Lane.mem_rows_of_running (inside : run ∈ lane.running) : run.row ∈ lane.rows := by
  apply List.mem_append_left
  rw [Option.mem_toList, Option.mem_def.mp inside]
  rfl

theorem Lane.mem_rows_of_queue (queued : row ∈ lane.queue) : row ∈ lane.rows :=
  List.mem_append_right _ queued

namespace Runners

variable {R : Type}

/-! ### Tokens -/

def At (s : Runners R) (r : R) (i : Nat) (lane : Lane) : Prop := (s.lanes r)[i]? = some lane

/-- The rows that runners hold have tokens of their own. -/
structure Tokens (s : Runners R) : Prop where
  within : ∀ {r i lane}, s.At r i lane → (lane.rows.map WorkRow.leaseToken).Nodup
  apart : ∀ {r i lane r' i' lane'}, s.At r i lane → s.At r' i' lane' → (r, i) ≠ (r', i') →
    ∀ a ∈ lane.rows, ∀ b ∈ lane'.rows, a.leaseToken ≠ b.leaseToken
  issued : ∀ {r i lane}, s.At r i lane →
    ∀ row ∈ lane.rows, row.leaseToken.isSome ∧ row.leaseToken ∈ s.issued

variable {s next : Runners R} {r : R} {deps : R → WorkRunnerDeps}

variable {r' : R} {turn : Turn R}

/-- A token in two places is in one place. -/
theorem Tokens.same_place (tokens : s.Tokens) (first : s.At r i lane) (second : s.At r' i' lane')
    (aHeld : a ∈ lane.rows) (bHeld : b ∈ lane'.rows) (same : a.leaseToken = b.leaseToken) :
    (r, i) = (r', i') := by
  by_contra different
  exact tokens.apart first second different a aHeld b bHeld same

/-! ### The invariant -/

/-- The stored row of `workKey` meets `p`. -/
def Stored (s : Runners R) (workKey : WorkKey) (p : WorkRow → Prop) : Prop :=
  ∃ stored, findWork workKey s.table.rows = some stored ∧ p stored

/-- A row that waits for its turn has its lease until the lease runs out. -/
structure Waiting (s : Runners R) (deps : WorkRunnerDeps) (row : WorkRow) (leaseUntil : Instant) :
    Prop where
  claimed : row.leaseUntil = some leaseUntil
  bound : leaseUntil ≤ s.clock + deps.lease
  held : s.clock ≤ leaseUntil →
    s.Stored row.workKey fun stored => row.ref.Holds stored ∧ stored.leaseUntil = some leaseUntil

/-- A row that runs has its lease until its next heartbeat at least, unless it is a push that it
has covered itself. -/
structure Kept (s : Runners R) (deps : WorkRunnerDeps) (run : Running) : Prop where
  due : s.clock ≤ run.nextBeat
  covers : workHeartbeatMs ≤ deps.lease
  held : s.Stored run.row.workKey fun stored =>
    (run.row.ref.Holds stored ∧ ∃ leaseUntil ∈ stored.leaseUntil, run.nextBeat ≤ leaseUntil) ∨
      ((∃ deliveryId, stored.workKey = .push deliveryId) ∧ stored.state = .done)

structure Orderly (deps : R → WorkRunnerDeps) (s : Runners R) : Prop where
  push : ∀ workKey, ∀ row ∈ findWork workKey s.table.rows, row.kind = .refresh →
    ∃ deliveryId, row.workKey = .push deliveryId
  tokens : s.Tokens
  waiting : ∀ {r i lane}, s.At r i lane → ∀ row ∈ lane.queue,
    ∃ leaseUntil, s.Waiting (deps r) row leaseUntil
  running : ∀ {r i lane}, s.At r i lane → ∀ run ∈ lane.running, s.Kept (deps r) run
  exclusive : s.Exclusive

theorem orderly_initial (deps : R → WorkRunnerDeps) (clock : Instant) :
    (initial clock : Runners R).Orderly deps := by
  have nowhere : ∀ {r i lane}, ¬ (initial clock : Runners R).At r i lane := by
    intro r i lane here
    simp [At, lanes, initial, Phase.lanes] at here
  constructor
  · intro workKey row found
    cases found
  · exact ⟨fun here => absurd here nowhere, fun here => absurd here nowhere,
      fun here => absurd here nowhere⟩
  · exact fun here => absurd here nowhere
  · exact fun here => absurd here nowhere
  · rintro r i row r' i' row' ⟨lane, here, -⟩
    exact absurd here nowhere

/-! ### Statements -/

theorem write_eq (written : s.write statement = some next) :
    next.table.rows = statement.run s.clock s.table.rows ∧ next.clock = s.clock ∧
      next.issued = s.issued ∧ next.phase = s.phase := by
  obtain ⟨table, accepted, rfl⟩ := Option.map_eq_some_iff.mp written
  exact ⟨accept_rows accepted, rfl, rfl, rfl⟩

theorem stored_write (written : s.write statement = some next) {q : WorkRow → Prop}
    (stored : s.Stored workKey p)
    (kept : ∀ row, row.workKey = workKey → p row → q (statement.updated s.clock row)) :
    next.Stored workKey q := by
  obtain ⟨row, found, holds⟩ := stored
  refine ⟨statement.updated s.clock row, ?_, kept row (workKey_of_findWork found) holds⟩
  rw [(write_eq written).1, findWork_run, found]
  rfl

theorem not_expired_of_le (lease : stored.leaseUntil = some leaseUntil) (alive : now ≤ leaseUntil) :
    ¬ stored.Expired now := by
  rintro ⟨-, until_, isUntil, passed⟩
  rw [lease] at isUntil
  cases isUntil
  exact absurd passed (Int.not_lt.mpr alive)

theorem Waiting.write {deps : WorkRunnerDeps} (waiting : s.Waiting deps row leaseUntil)
    (written : s.write statement = some next) (others : ¬ statement.Acks row.ref) :
    next.Waiting deps row leaseUntil where
  claimed := waiting.claimed
  bound := by
    rw [(write_eq written).2.1]
    exact waiting.bound
  held := by
    rw [(write_eq written).2.1]
    intro alive
    apply stored_write written (waiting.held alive)
    intro stored _ ⟨holds, lease⟩
    have kept := holds.updated others (not_expired_of_le lease alive)
    exact ⟨kept.1, kept.2.trans lease⟩

theorem Kept.write {deps : WorkRunnerDeps} (kept : s.Kept deps run)
    (written : s.write statement = some next) (others : ¬ statement.Acks run.row.ref) :
    next.Kept deps run where
  due := by
    rw [(write_eq written).2.1]
    exact kept.due
  covers := kept.covers
  held := by
    apply stored_write written kept.held
    rintro stored - (⟨holds, leaseUntil, lease, later⟩ | ⟨⟨deliveryId, push⟩, closed⟩)
    · have alive := not_expired_of_le lease (kept.due.trans later)
      have after := holds.updated others alive
      exact .inl ⟨after.1, leaseUntil, after.2.trans lease, later⟩
    · rw [updated_of_closed push closed]
      exact .inr ⟨⟨deliveryId, push⟩, closed⟩

theorem push_write
    (push : ∀ workKey, ∀ row ∈ findWork workKey s.table.rows, row.kind = .refresh →
      ∃ deliveryId, row.workKey = .push deliveryId) (written : s.write statement = some next) :
    ∀ workKey, ∀ row ∈ findWork workKey next.table.rows, row.kind = .refresh →
      ∃ deliveryId, row.workKey = .push deliveryId := by
  intro workKey row found refresh
  rw [(write_eq written).1] at found
  rcases findWork_run_cases found with ⟨-, inserted⟩ | ⟨old, before, rfl⟩
  · rcases Statement.inserted_cases inserted with ⟨input, -, rfl⟩ | ⟨input, -, rfl⟩
    · exact ⟨input.deliveryId, rfl⟩
    · exact absurd refresh input.notRefresh
  · rw [statement.updated_workKey]
    rw [statement.updated_kind] at refresh
    exact push workKey old before refresh

/-- A statement keeps everything in order when it acknowledges no lease of a waiting row and the
running rows keep theirs. -/
theorem Orderly.write (orderly : s.Orderly deps) (written : s.write statement = some next)
    (queued : ∀ {r i lane}, s.At r i lane → ∀ row ∈ lane.queue, ¬ statement.Acks row.ref)
    (running : ∀ {r i lane}, s.At r i lane → ∀ run ∈ lane.running, next.Kept (deps r) run) :
    next.Orderly deps := by
  obtain ⟨-, clock, issued, phase⟩ := write_eq written
  have lanes : ∀ r, next.lanes r = s.lanes r := fun r => congrArg Phase.lanes (congrFun phase r)
  have place : ∀ {r i lane}, next.At r i lane → s.At r i lane := by
    intro r i lane here
    rw [At, lanes] at here
    exact here
  constructor
  · exact push_write orderly.push written
  · constructor
    · exact fun here => orderly.tokens.within (place here)
    · exact fun first second => orderly.tokens.apart (place first) (place second)
    · intro r i lane here row held
      rw [issued]
      exact orderly.tokens.issued (place here) row held
  · intro r i lane here row waits
    obtain ⟨leaseUntil, waiting⟩ := orderly.waiting (place here) row waits
    exact ⟨leaseUntil, waiting.write written (queued (place here) row waits)⟩
  · exact fun here => running (place here)
  · have inside : ∀ {r i row}, next.Inside r i row → s.Inside r i row := by
      rintro r i row ⟨lane, here, runs⟩
      exact ⟨lane, place here, runs⟩
    intro r i row r' i' row' first second
    exact orderly.exclusive r i row r' i' row' (inside first) (inside second)

/-- A statement that acknowledges nobody's lease keeps everything in order. -/
theorem Orderly.write_others (orderly : s.Orderly deps) (written : s.write statement = some next)
    (others : ∀ {r i lane}, s.At r i lane → ∀ row ∈ lane.rows, ¬ statement.Acks row.ref) :
    next.Orderly deps := by
  apply orderly.write written
  · intro r i lane here row queued
    exact others here row (Lane.mem_rows_of_queue queued)
  · intro r i lane here run inside
    have kept := orderly.running here run inside
    exact kept.write written (others here run.row (Lane.mem_rows_of_running inside))

/-- A statement about the lease of one running row leaves the other rows theirs. -/
theorem Orderly.write_own (orderly : s.Orderly deps) (written : s.write statement = some next)
    (here : s.At r i ⟨some run, queue⟩)
    (own : ∀ lease, statement.Acks lease → lease.leaseToken = run.row.ref.leaseToken)
    (kept : next.Kept (deps r) run) : next.Orderly deps := by
  have inside : run.row ∈ (Lane.mk (some run) queue).rows := Lane.mem_rows_of_running rfl
  have isSome := (orderly.tokens.issued here run.row inside).1
  have other : ∀ row : WorkRow, row.leaseToken.isSome → run.row.leaseToken ≠ row.leaseToken →
      ¬ statement.Acks row.ref := by
    intro row rowSome different acks
    exact ref_ne_of_token isSome rowSome different (own row.ref acks).symm
  apply orderly.write written
  · intro r' i' lane there row queued
    have held := Lane.mem_rows_of_queue queued
    apply other row (orderly.tokens.issued there row held).1
    intro same
    have place := orderly.tokens.same_place here there inside held same
    obtain ⟨rfl, rfl⟩ := Prod.mk.inj place
    rw [At, here] at there
    cases there
    -- the row that runs does not wait behind itself
    have distinct := orderly.tokens.within here
    simp only [Lane.rows, Option.map_some, Option.toList_some, List.singleton_append, List.map_cons,
      List.nodup_cons] at distinct
    rw [same] at distinct
    exact distinct.1 (List.mem_map_of_mem queued)
  · intro r' i' lane there run' inside'
    have held := Lane.mem_rows_of_running inside'
    by_cases same : run.row.leaseToken = run'.row.leaseToken
    · have place := orderly.tokens.same_place here there inside held same
      obtain ⟨rfl, rfl⟩ := Prod.mk.inj place
      rw [At, here] at there
      cases there
      cases inside'
      exact kept
    · have issued := (orderly.tokens.issued there run'.row held).1
      exact (orderly.running there run' inside').write written (other run'.row issued same)

theorem Orderly.tick (orderly : s.Orderly deps) {clock : Instant} (later : s.clock ≤ clock)
    (quiet : s.Quiet clock) : { s with clock := clock }.Orderly deps := by
  constructor
  · exact orderly.push
  · exact ⟨orderly.tokens.within, orderly.tokens.apart, orderly.tokens.issued⟩
  · intro r i lane here row queued
    obtain ⟨leaseUntil, waiting⟩ := orderly.waiting here row queued
    refine ⟨leaseUntil, waiting.claimed, ?_, fun alive => waiting.held (later.trans alive)⟩
    exact waiting.bound.trans (Int.add_le_add_right later _)
  · intro r i lane here run inside
    have running := orderly.running here run inside
    exact ⟨quiet r lane (List.mem_of_getElem? here) run inside, running.covers, running.held⟩
  · exact orderly.exclusive

/-! ### Claims -/

/-- A claim leaves the rows alone that are neither ready nor to be tried again. -/
theorem findWork_claim_of_not_due (found : findWork workKey rows = some row)
    (unready : row.state = .leased ∨ row.state = .done) :
    findWork workKey (claimDueWork options locked genRandomUuid now rows).2 = some row := by
  have unselected : row ∉ options.select locked now rows := by
    intro selected
    have due := (ClaimOptions.due_of_mem_select selected).2.1
    rcases unready with leased | done
    · simp [leased] at due
    · simp [done] at due
  rw [findWork_claimDueWork, found]
  simp [unselected]

theorem stored_claim
    (rows : next.table.rows = (claimDueWork options locked genRandomUuid s.clock s.table.rows).2)
    (stored : s.Stored workKey p) (unready : ∀ row, p row → row.state = .leased ∨ row.state = .done) :
    next.Stored workKey p := by
  obtain ⟨row, found, holds⟩ := stored
  refine ⟨row, ?_, holds⟩
  rw [rows]
  exact findWork_claim_of_not_due found (unready row holds)

/-- A claimed row waits with its new lease. -/
theorem waiting_of_claimed {deps : WorkRunnerDeps}
    (rows : next.table.rows = (claimDueWork options locked genRandomUuid s.clock s.table.rows).2)
    (clock : next.clock = s.clock) (lease : options.leaseMs = deps.lease) {claim : WorkRow}
    (made : claim ∈ (claimDueWork options locked genRandomUuid s.clock s.table.rows).1) :
    next.Waiting deps claim (s.clock + deps.lease) := by
  obtain ⟨row, selected, stored, -, rfl⟩ := mem_claimDueWork made
  constructor
  · rw [WorkRow.lease, lease]
  · rw [clock]
  · intro _
    refine ⟨row.lease genRandomUuid (s.clock + options.leaseMs), ?_, ⟨rfl, rfl, rfl⟩, ?_⟩
    · have found := s.table.lawful.findWork_of_mem stored
      have leased : (row.lease genRandomUuid (s.clock + options.leaseMs)).workKey = row.workKey :=
        rfl
      rw [rows, leased, findWork_claimDueWork, found]
      simp [selected]
    · rw [WorkRow.lease, lease]

/-- The lanes of a batch share no token. -/
theorem lanesOf_tokens (distinct : (claimed.map WorkRow.leaseToken).Nodup) :
    (∀ lane ∈ lanesOf claimed, (lane.rows.map WorkRow.leaseToken).Nodup) ∧
      (lanesOf claimed).Pairwise fun a b =>
        ∀ row ∈ a.rows, ∀ other ∈ b.rows, row.leaseToken ≠ other.leaseToken := by
  have flat := ((lanesOf_perm claimed).map WorkRow.leaseToken).nodup_iff.mpr distinct
  rw [List.map_flatMap, List.nodup_flatMap] at flat
  refine ⟨flat.1, flat.2.imp ?_⟩
  intro a b disjoint row held other heldOther same
  apply disjoint (List.mem_map_of_mem held)
  rw [same]
  exact List.mem_map_of_mem heldOther

theorem mem_of_mem_lanesOf (made : lane ∈ lanesOf claimed) (held : row ∈ lane.rows) :
    row ∈ claimed :=
  (lanesOf_perm claimed).mem_iff.mp (List.mem_flatMap.mpr ⟨lane, made, held⟩)

/-! ### Starts and heartbeats -/

theorem le_nextBeat (clock : Instant) : clock ≤ clock + workHeartbeatMs :=
  Int.le_add_of_nonneg_right (by decide)

/-- A prompt start finds the lease of its claim. -/
theorem Orderly.startsHeld (orderly : s.Orderly deps) (prompt : s.Prompt turn) :
    s.StartsHeld turn := by
  intro row isNext
  obtain ⟨leaseUntil, lease, covers⟩ := prompt row isNext
  cases turn with
  | start r i =>
    simp only [Runners.next] at isNext
    split at isNext
    next row' rest here =>
      cases isNext
      obtain ⟨bound, waiting⟩ := orderly.waiting here row List.mem_cons_self
      have same := Option.mem_unique lease waiting.claimed
      have alive : s.clock ≤ bound := same ▸ (le_nextBeat s.clock).trans covers
      obtain ⟨stored, found, holds, -⟩ := waiting.held alive
      exact ⟨stored, mem_of_findWork found, holds⟩
    · cases isNext
  | tick | outside | reclaim | claim | beat | call | finish | drop | endRound => cases isNext

/-- The heartbeat prolongs the lease beyond the next heartbeat. -/
theorem Kept.beat {deps : WorkRunnerDeps} (kept : s.Kept deps run)
    (written : s.write (.heartbeatWork run.row.ref deps.lease) = some next) :
    next.Kept deps ⟨run.row, s.clock + workHeartbeatMs⟩ where
  due := by
    rw [(write_eq written).2.1]
    exact le_nextBeat s.clock
  covers := kept.covers
  held := by
    apply stored_write written kept.held
    rintro stored - (⟨holds, -⟩ | ⟨⟨deliveryId, push⟩, closed⟩)
    · left
      simp only [Statement.updated, holds, if_true]
      refine ⟨⟨holds.1, holds.2.1, holds.2.2⟩, s.clock + deps.lease, rfl, ?_⟩
      exact Int.add_le_add_left kept.covers s.clock
    · rw [updated_of_closed push closed]
      exact .inr ⟨⟨deliveryId, push⟩, closed⟩

/-- A running work may write its progress, and may close its own push. -/
theorem Kept.call {deps : WorkRunnerDeps} (kept : s.Kept deps run)
    (push : ∀ workKey, ∀ row ∈ findWork workKey s.table.rows, row.kind = .refresh →
      ∃ deliveryId, row.workKey = .push deliveryId) (own : statement.Own run.row)
    (written : s.write statement = some next) : next.Kept deps run := by
  cases statement with
  | updateWorkProgress lease progress => exact kept.write written id
  | completeCoveredRefreshWorks workKeys leaseToken =>
    refine ⟨(write_eq written).2.1 ▸ kept.due, kept.covers, ?_⟩
    obtain ⟨stored, found, holds⟩ := kept.held
    have found' : s.Stored run.row.workKey (· = stored) := ⟨stored, found, rfl⟩
    apply stored_write written found'
    rintro stored' - rfl
    rcases holds with ⟨holds, leaseUntil, lease, later⟩ | ⟨⟨deliveryId, isPush⟩, closed⟩
    · simp only [Statement.updated]
      split
      next coverable =>
        exact .inr ⟨push run.row.workKey stored' found coverable.1, rfl⟩
      next uncovered => exact .inl ⟨holds, leaseUntil, lease, later⟩
    · rw [updated_of_closed isPush closed]
      exact .inr ⟨⟨deliveryId, isPush⟩, closed⟩
  | enqueueRefreshWork | requestWork | completeWork | releaseWork | heartbeatWork
  | reclaimExpiredLeases => exact absurd own id

theorem acks_token (own : statement.Own row) (lease : LeaseRef) (acks : statement.Acks lease) :
    lease.leaseToken = row.ref.leaseToken := by
  cases statement with
  | completeCoveredRefreshWorks workKeys leaseToken =>
    have token : row.leaseToken = some lease.leaseToken := own.symm.trans acks
    rw [WorkRow.ref, token, Option.getD_some]
  | enqueueRefreshWork | requestWork | completeWork | releaseWork | updateWorkProgress
  | heartbeatWork | reclaimExpiredLeases => first | exact absurd own id | exact absurd acks id

theorem Orderly.call (orderly : s.Orderly deps) (here : s.At r i ⟨some run, queue⟩)
    (own : statement.Own run.row) (written : s.write statement = some next) :
    next.Orderly deps := by
  have kept := orderly.running here run rfl
  exact orderly.write_own written here (acks_token own) (kept.call orderly.push own written)

/-! ### Lanes -/

variable [DecidableEq R]

theorem at_setLane (here : (s.setLane r i lane).At r' i' lane') :
    (r' = r ∧ i' = i ∧ lane' = lane) ∨ ((r', i') ≠ (r, i) ∧ s.At r' i' lane') := by
  unfold At lanes setLane setPhase at here
  by_cases sameRunner : r' = r
  · subst sameRunner
    simp only [Function.update_self, Phase.lanes, List.getElem?_set] at here
    by_cases sameLane : i = i'
    · simp only [sameLane, if_true] at here
      split at here
      · exact .inl ⟨rfl, sameLane.symm, (Option.some.inj here).symm⟩
      · cases here
    · simp only [sameLane, if_false] at here
      exact .inr ⟨fun same => sameLane (congrArg Prod.snd same).symm, here⟩
  · simp only [Function.update_of_ne sameRunner] at here
    exact .inr ⟨fun same => sameRunner (congrArg Prod.fst same), here⟩

/-- A lane may give up rows. -/
theorem Tokens.setLane (tokens : s.Tokens) (here : s.At r i lane)
    (fewer : lane'.rows.Sublist lane.rows) :
    (s.setLane r i lane').Tokens where
  within := by
    intro r' i' other there
    rcases at_setLane there with ⟨rfl, rfl, rfl⟩ | ⟨-, was⟩
    · exact (tokens.within here).sublist (fewer.map WorkRow.leaseToken)
    · exact tokens.within was
  apart := by
    intro r₁ i₁ first r₂ i₂ second firstAt secondAt different a aHeld b bHeld
    rcases at_setLane firstAt with ⟨rfl, rfl, rfl⟩ | ⟨-, firstWas⟩
    · rcases at_setLane secondAt with ⟨rfl, rfl, rfl⟩ | ⟨-, secondWas⟩
      · exact absurd rfl different
      · exact tokens.apart here secondWas different a (fewer.subset aHeld) b bHeld
    · rcases at_setLane secondAt with ⟨rfl, rfl, rfl⟩ | ⟨-, secondWas⟩
      · exact tokens.apart firstWas here different a aHeld b (fewer.subset bHeld)
      · exact tokens.apart firstWas secondWas different a aHeld b bHeld
  issued := by
    intro r' i' other there row held
    rcases at_setLane there with ⟨rfl, rfl, rfl⟩ | ⟨-, was⟩
    · exact tokens.issued here row (fewer.subset held)
    · exact tokens.issued was row held

/-- A lane goes on with fewer rows; a row that runs there has its lease and its key to itself. -/
theorem Orderly.setLane (orderly : s.Orderly deps) (here : s.At r i lane)
    (fewer : lane'.rows.Sublist lane.rows) (queue : ∀ row ∈ lane'.queue, row ∈ lane.queue)
    (kept : ∀ run ∈ lane'.running, s.Kept (deps r) run)
    (alone : ∀ run ∈ lane'.running, ∀ r' i' row, s.Inside r' i' row →
      run.row.workKey = row.workKey → r' = r ∧ i' = i) : (s.setLane r i lane').Orderly deps := by
  constructor
  · exact orderly.push
  · exact orderly.tokens.setLane here fewer
  · intro r' i' other there row queued
    rcases at_setLane there with ⟨rfl, rfl, rfl⟩ | ⟨-, was⟩
    · exact (orderly.waiting here row (queue row queued)).imp fun _ waiting =>
        ⟨waiting.claimed, waiting.bound, waiting.held⟩
    · exact (orderly.waiting was row queued).imp fun _ waiting =>
        ⟨waiting.claimed, waiting.bound, waiting.held⟩
  · intro r' i' other there run inside
    rcases at_setLane there with ⟨rfl, rfl, rfl⟩ | ⟨-, was⟩
    · have running := kept run inside
      exact ⟨running.due, running.covers, running.held⟩
    · have running := orderly.running was run inside
      exact ⟨running.due, running.covers, running.held⟩
  · have cases_inside : ∀ {r' i' row}, (s.setLane r i lane').Inside r' i' row →
        (r' = r ∧ i' = i ∧ ∃ run ∈ lane'.running, run.row = row) ∨ s.Inside r' i' row := by
      rintro r' i' row ⟨other, there, runs⟩
      rcases at_setLane there with ⟨rfl, rfl, rfl⟩ | ⟨-, was⟩
      · obtain ⟨run, inside, isRow⟩ := Option.map_eq_some_iff.mp runs
        exact .inl ⟨rfl, rfl, run, inside, isRow⟩
      · exact .inr ⟨other, was, runs⟩
    intro r₁ i₁ first r₂ i₂ second firstIn secondIn key
    rcases cases_inside firstIn with ⟨rfl, rfl, run, inside, rfl⟩ | firstWas
    · rcases cases_inside secondIn with ⟨rfl, rfl, -⟩ | secondWas
      · exact ⟨rfl, rfl⟩
      · have place := alone run inside r₂ i₂ second secondWas key
        exact ⟨place.1.symm, place.2.symm⟩
    · rcases cases_inside secondIn with ⟨rfl, rfl, run, inside, rfl⟩ | secondWas
      · exact alone run inside r₁ i₁ first firstWas key.symm
      · exact orderly.exclusive r₁ i₁ first r₂ i₂ second firstWas secondWas key

/-- A lane in which nothing runs any more. -/
theorem Orderly.clearLane (orderly : s.Orderly deps) (here : s.At r i lane)
    (fewer : queue.Sublist lane.queue) : (s.setLane r i ⟨none, queue⟩).Orderly deps := by
  apply orderly.setLane here
  · exact fewer.trans (List.sublist_append_right _ _)
  · exact fun row queued => fewer.subset queued
  · intro run inside
    cases inside
  · intro run inside
    cases inside

/-- A runner without lanes, before and after. -/
theorem Orderly.setPhase (orderly : s.Orderly deps) {phase : Phase} (empty : phase.lanes = []) :
    (s.setPhase r phase).Orderly deps := by
  have place : ∀ {r' i lane}, (s.setPhase r phase).At r' i lane → s.At r' i lane := by
    intro r' i lane here
    unfold At lanes Runners.setPhase at here
    by_cases same : r' = r
    · subst same
      simp [empty] at here
    · simpa [At, lanes, same] using here
  constructor
  · exact orderly.push
  · constructor
    · exact fun here => orderly.tokens.within (place here)
    · exact fun first second => orderly.tokens.apart (place first) (place second)
    · exact fun here => orderly.tokens.issued (place here)
  · intro r' i lane here row queued
    exact (orderly.waiting (place here) row queued).imp fun _ waiting =>
      ⟨waiting.claimed, waiting.bound, waiting.held⟩
  · intro r' i lane here run inside
    have running := orderly.running (place here) run inside
    exact ⟨running.due, running.covers, running.held⟩
  · intro r₁ i₁ first r₂ i₂ second ⟨lane, here, runs⟩ ⟨lane', there, runs'⟩
    exact orderly.exclusive r₁ i₁ first r₂ i₂ second ⟨lane, place here, runs⟩
      ⟨lane', place there, runs'⟩

theorem Orderly.claim (orderly : s.Orderly deps) {claims : List WorkRow} {table : Table}
    (claimed : claimDueWork (deps r).claimOptions locked genRandomUuid s.clock s.table.rows =
      (claims, rows)) (fresh : (claims.map WorkRow.leaseToken ++ s.issued).Nodup)
    (accepted : table.rows = rows) :
    ({ s with table := table, issued := claims.map WorkRow.leaseToken ++ s.issued }.setPhase r
      (.working (lanesOf claims))).Orderly deps := by
  obtain ⟨distinct, -, apart⟩ := List.nodup_append.mp fresh
  have made : (claimDueWork (deps r).claimOptions locked genRandomUuid s.clock s.table.rows).1 =
      claims := congrArg Prod.fst claimed
  have left : table.rows =
      (claimDueWork (deps r).claimOptions locked genRandomUuid s.clock s.table.rows).2 := by
    rw [accepted, claimed]
  generalize same : { s with
    table := table, issued := claims.map WorkRow.leaseToken ++ s.issued }.setPhase r
      (.working (lanesOf claims)) = next
  have nextRows : next.table.rows =
      (claimDueWork (deps r).claimOptions locked genRandomUuid s.clock s.table.rows).2 :=
    same ▸ left
  have nextClock : next.clock = s.clock := same ▸ rfl
  have nextIssued : next.issued = claims.map WorkRow.leaseToken ++ s.issued := same ▸ rfl
  -- a place of the next state is one of the new lanes or an old place of another runner
  have place : ∀ {r' i lane}, next.At r' i lane →
      (r' = r ∧ (lanesOf claims)[i]? = some lane) ∨ (r' ≠ r ∧ s.At r' i lane) := by
    intro r' i lane here
    subst same
    unfold At lanes Runners.setPhase at here
    by_cases same : r' = r
    · subst same
      exact .inl ⟨rfl, by simpa [Phase.lanes] using here⟩
    · exact .inr ⟨same, by simpa [At, lanes, same] using here⟩
  have tokens := lanesOf_tokens distinct
  have newToken : ∀ {i : Nat} {lane : Lane} {row : WorkRow},
      (lanesOf claims)[i]? = some lane → row ∈ lane.rows →
      row.leaseToken ∈ claims.map WorkRow.leaseToken := by
    intro i lane row here held
    exact List.mem_map_of_mem (mem_of_mem_lanesOf (List.mem_of_getElem? here) held)
  constructor
  · intro workKey row found refresh
    rw [nextRows, findWork_claimDueWork] at found
    obtain ⟨old, before, rfl⟩ := Option.map_eq_some_iff.mp found
    have push := orderly.push workKey old before
    split at refresh
    next selected =>
      simp only [selected, if_true]
      exact push refresh
    next unselected =>
      simp only [unselected, if_false]
      exact push refresh
  · constructor
    · intro r' i lane here
      rcases place here with ⟨rfl, new⟩ | ⟨-, old⟩
      · exact tokens.1 lane (List.mem_of_getElem? new)
      · exact orderly.tokens.within old
    · intro r₁ i₁ first r₂ i₂ second firstAt secondAt different a aHeld b bHeld
      rcases place firstAt with ⟨rfl, firstNew⟩ | ⟨-, firstOld⟩
      · rcases place secondAt with ⟨rfl, secondNew⟩ | ⟨-, secondOld⟩
        · have positions : i₁ ≠ i₂ := fun same => different (by rw [same])
          obtain ⟨firstBound, firstIs⟩ := List.getElem?_eq_some_iff.mp firstNew
          obtain ⟨secondBound, secondIs⟩ := List.getElem?_eq_some_iff.mp secondNew
          have pairwise := List.pairwise_iff_getElem.mp tokens.2
          rcases Nat.lt_or_gt_of_ne positions with before | after
          · have disjoint := pairwise i₁ i₂ firstBound secondBound before
            rw [firstIs, secondIs] at disjoint
            exact disjoint a aHeld b bHeld
          · have disjoint := pairwise i₂ i₁ secondBound firstBound after
            rw [firstIs, secondIs] at disjoint
            exact (disjoint b bHeld a aHeld).symm
        · exact apart _ (newToken firstNew aHeld) _ (orderly.tokens.issued secondOld b bHeld).2
      · rcases place secondAt with ⟨rfl, secondNew⟩ | ⟨-, secondOld⟩
        · exact (apart _ (newToken secondNew bHeld) _
            (orderly.tokens.issued firstOld a aHeld).2).symm
        · exact orderly.tokens.apart firstOld secondOld different a aHeld b bHeld
    · intro r' i lane here row held
      rw [nextIssued, List.mem_append]
      rcases place here with ⟨rfl, new⟩ | ⟨-, old⟩
      · refine ⟨?_, .inl (newToken new held)⟩
        have claim := mem_of_mem_lanesOf (List.mem_of_getElem? new) held
        rw [← made] at claim
        obtain ⟨was, -, -, -, rfl⟩ := mem_claimDueWork claim
        rfl
      · have issued := orderly.tokens.issued old row held
        exact ⟨issued.1, .inr issued.2⟩
  · intro r' i lane here row queued
    rcases place here with ⟨rfl, new⟩ | ⟨-, old⟩
    · have claim := mem_of_mem_lanesOf (List.mem_of_getElem? new) (Lane.mem_rows_of_queue queued)
      rw [← made] at claim
      exact ⟨_, waiting_of_claimed nextRows nextClock rfl claim⟩
    · obtain ⟨leaseUntil, waiting⟩ := orderly.waiting old row queued
      refine ⟨leaseUntil, waiting.claimed, ?_, ?_⟩
      · rw [nextClock]
        exact waiting.bound
      · rw [nextClock]
        intro alive
        apply stored_claim nextRows (waiting.held alive)
        exact fun stored holds => .inl holds.1.2.2
  · intro r' i lane here run inside
    rcases place here with ⟨rfl, new⟩ | ⟨-, old⟩
    · rw [running_of_mem_lanesOf (List.mem_of_getElem? new)] at inside
      cases inside
    · have kept := orderly.running old run inside
      refine ⟨?_, kept.covers, ?_⟩
      · rw [nextClock]
        exact kept.due
      · apply stored_claim nextRows kept.held
        rintro stored (holds | closed)
        · exact .inl holds.1.2.2
        · exact .inr closed.2
  · have inside : ∀ {r' i row}, next.Inside r' i row → s.Inside r' i row := by
      rintro r' i row ⟨lane, here, runs⟩
      rcases place here with ⟨rfl, new⟩ | ⟨-, old⟩
      · rw [running_of_mem_lanesOf (List.mem_of_getElem? new)] at runs
        cases runs
      · exact ⟨lane, old, runs⟩
    intro r₁ i₁ first r₂ i₂ second firstIn secondIn
    exact orderly.exclusive r₁ i₁ first r₂ i₂ second (inside firstIn) (inside secondIn)

/-! ### Turns -/

theorem Orderly.start (orderly : s.Orderly deps) {rest : List WorkRow}
    (here : s.At r i ⟨none, row :: rest⟩)
    (prompt : ∃ leaseUntil ∈ row.leaseUntil, s.clock + workHeartbeatMs ≤ leaseUntil) :
    (s.setLane r i ⟨some ⟨row, s.clock + workHeartbeatMs⟩, rest⟩).Orderly deps := by
  obtain ⟨leaseUntil, lease, covers⟩ := prompt
  obtain ⟨bound, waiting⟩ := orderly.waiting here row List.mem_cons_self
  have same : leaseUntil = bound := Option.mem_unique lease waiting.claimed
  subst same
  have alive : s.clock ≤ leaseUntil := (le_nextBeat s.clock).trans covers
  obtain ⟨stored, found, holds, until_⟩ := waiting.held alive
  have issued := (orderly.tokens.issued here row List.mem_cons_self).1
  apply orderly.setLane here
  · exact List.Sublist.refl _
  · exact fun other queued => List.mem_cons_of_mem _ queued
  · intro run inside
    cases inside
    have long := Int.le_of_add_le_add_left (covers.trans waiting.bound)
    exact ⟨le_nextBeat s.clock, long, stored, found, .inl ⟨holds, leaseUntil, until_, covers⟩⟩
  · rintro run inside r' i' other ⟨lane, there, runs⟩ key
    cases inside
    obtain ⟨run', inside', rfl⟩ := Option.map_eq_some_iff.mp runs
    obtain ⟨stored', found', kept⟩ := (orderly.running there run' inside').held
    have sameKey : row.workKey = run'.row.workKey := key
    rw [← sameKey, found] at found'
    cases found'
    have held := Lane.mem_rows_of_running inside'
    rcases kept with ⟨holds', -⟩ | ⟨-, closed⟩
    · -- both leases hold on the one stored row, so they are one lease
      have issued' := (orderly.tokens.issued there run'.row held).1
      have tokens : row.leaseToken = run'.row.leaseToken := by
        rw [← token_of_holds issued holds, token_of_holds issued' holds']
      have place := orderly.tokens.same_place there here held List.mem_cons_self tokens.symm
      exact Prod.mk.inj place
    · have leased := holds.2.2
      rw [closed] at leased
      cases leased

theorem Orderly.beat (orderly : s.Orderly deps) (here : s.At r i ⟨some run, queue⟩)
    (due : s.clock = run.nextBeat)
    (written : s.write (.heartbeatWork run.row.ref (deps r).lease) = some next) :
    (next.setLane r i ⟨some ⟨run.row, s.clock + workHeartbeatMs⟩, queue⟩).Orderly deps := by
  have kept := (orderly.running here run rfl).beat written
  have before : next.Kept (deps r) run := by
    obtain ⟨stored, found, holds⟩ := kept.held
    refine ⟨?_, kept.covers, stored, found, ?_⟩
    · rw [(write_eq written).2.1, due]
    · refine holds.imp ?_ id
      rintro ⟨held, leaseUntil, lease, later⟩
      refine ⟨held, leaseUntil, lease, ?_⟩
      rw [← due]
      exact (le_nextBeat s.clock).trans later
  have written_own := orderly.write_own written here (fun lease acks => congrArg _ acks.symm) before
  have there : next.At r i ⟨some run, queue⟩ := by
    unfold At lanes
    rw [(write_eq written).2.2.2]
    exact here
  apply written_own.setLane there
  · exact List.Sublist.refl _
  · exact fun row queued => queued
  · intro run' inside
    cases inside
    exact kept
  · rintro run' inside r' i' row ⟨lane, elsewhere, runs⟩ key
    cases inside
    exact written_own.exclusive r' i' row r i run.row ⟨lane, elsewhere, runs⟩ ⟨_, there, rfl⟩
      key.symm

/-- An acknowledgement is the same whether the lane lets go of the row before or after it. -/
theorem write_setLane (r : R) (i : Nat) (lane : Lane) (written : s.write statement = some next) :
    (s.setLane r i lane).write statement = some (next.setLane r i lane) := by
  obtain ⟨table, accepted, rfl⟩ := Option.map_eq_some_iff.mp written
  exact Option.map_eq_some_iff.mpr ⟨table, accepted, rfl⟩

theorem Ending.acks (acks : (ending.statement row).Acks lease) : row.ref = lease := by
  cases ending <;> exact acks

theorem Orderly.finish (orderly : s.Orderly deps) (here : s.At r i ⟨some run, queue⟩)
    (written : s.write (ending.statement run.row) = some next) :
    (next.setLane r i ⟨none, queue⟩).Orderly deps := by
  have cleared := orderly.clearLane here (List.Sublist.refl queue)
  apply cleared.write_others (write_setLane r i ⟨none, queue⟩ written)
  intro r' i' lane there row held acks
  have inside : run.row ∈ (Lane.mk (some run) queue).rows := Lane.mem_rows_of_running rfl
  have issued := (orderly.tokens.issued here run.row inside).1
  have issued' := (cleared.tokens.issued there row held).1
  have tokens : run.row.leaseToken = row.leaseToken := by
    by_contra different
    have same := congrArg LeaseRef.leaseToken (Ending.acks acks)
    exact ref_ne_of_token issued issued' different same
  -- the token of the row that ran is nowhere else
  rcases at_setLane there with ⟨rfl, rfl, rfl⟩ | ⟨elsewhere, was⟩
  · have distinct := orderly.tokens.within here
    simp only [Lane.rows, Option.map_some, Option.toList_some, List.singleton_append, List.map_cons,
      List.nodup_cons] at distinct
    rw [tokens] at distinct
    exact distinct.1 (List.mem_map_of_mem held)
  · exact elsewhere (orderly.tokens.same_place was here held inside tokens.symm)

variable [Fintype R]

theorem Orderly.step (orderly : s.Orderly deps) (prompt : s.Prompt turn)
    (stepped : s.step deps turn = some next) : next.Orderly deps := by
  cases turn <;> simp only [Runners.step] at stepped
  case tick clock =>
    split at stepped
    next allowed =>
      cases stepped
      exact orderly.tick allowed.1 allowed.2
    · cases stepped
  case outside statement =>
    split at stepped
    next unleased =>
      exact orderly.write_others stepped fun _ row _ => not_acks_of_unleased unleased row.ref
    · cases stepped
  case reclaim r =>
    split at stepped
    · obtain ⟨written, reclaims, rfl⟩ := Option.map_eq_some_iff.mp stepped
      exact (orderly.write_others reclaims fun _ _ _ => id).setPhase rfl
    · cases stepped
  case claim r locked genRandomUuid =>
    split at stepped
    · split at stepped
      next fresh =>
        obtain ⟨table, accepted, rfl⟩ := Option.map_eq_some_iff.mp stepped
        exact orderly.claim rfl fresh (accept_rows accepted)
      · cases stepped
    · cases stepped
  case start r i =>
    split at stepped
    next row rest here =>
      cases stepped
      apply orderly.start here
      apply prompt row
      simp only [Runners.next, here]
      rfl
    · cases stepped
  case beat r i =>
    split at stepped
    next run queue here =>
      split at stepped
      next due =>
        obtain ⟨written, beats, rfl⟩ := Option.map_eq_some_iff.mp stepped
        exact orderly.beat here due beats
      · cases stepped
    · cases stepped
  case call r i statement =>
    split at stepped
    next run queue here =>
      split at stepped
      next own => exact orderly.call here own stepped
      · cases stepped
    · cases stepped
  case finish r i ending =>
    split at stepped
    next run queue here =>
      obtain ⟨written, ends, rfl⟩ := Option.map_eq_some_iff.mp stepped
      exact orderly.finish here ends
    · cases stepped
  case drop r i =>
    split at stepped
    next lane here =>
      cases stepped
      exact orderly.clearLane here (List.nil_sublist _)
    · cases stepped
  case endRound r =>
    split at stepped
    · split at stepped
      · cases stepped
        exact orderly.setPhase rfl
      · cases stepped
    · cases stepped

end Runners

/-- In every run in which each row's turn comes in time, a key has one executor at most, and a work
that starts has its lease. -/
theorem one_executor_per_key {R : Type} [DecidableEq R] [Fintype R] (deps : R → WorkRunnerDeps)
    (clock : Instant) (turns : List (Turn R))
    (prompt : ∀ turn ∈ (running deps).taken turns (.initial clock), turn.1.Prompt turn.2) :
    (∀ s ∈ (running deps).visited turns (.initial clock), s.Exclusive) ∧
      ∀ turn ∈ (running deps).taken turns (.initial clock), turn.1.StartsHeld turn.2 := by
  have orderly : ∀ s ∈ (running deps).visited turns (.initial clock), s.Orderly deps := by
    apply Automaton.visited_of_taken _ (Runners.orderly_initial deps clock) prompt
    intro s turn next kept inTime stepped
    exact kept.step inTime stepped
  constructor
  · exact fun s reached => (orderly s reached).exclusive
  · intro turn made
    have reached := Automaton.visited_of_mem_taken made
    exact (orderly turn.1 reached).startsHeld (prompt turn made)

instance {R : Type} (s : Runners R) (turn : Turn R) : Decidable (s.Prompt turn) :=
  inferInstanceAs (Decidable (∀ _ ∈ _, ∃ _ ∈ _, _))

def pushed : EnqueueRefreshInput := ⟨"d1", 1, "main", "push"⟩

theorem project_ne_refresh : WorkKind.project ≠ .refresh := by decide

def projection : RequestWorkInput :=
  { kind := .project, repositoryId := 1, baseBranch := "main", seqEpoch := 1, payload := "tail",
    notRefresh := project_ne_refresh }

/-- Two tokens of one claim. -/
def uuids (push space : String) : WorkKey → String
  | .push _ => push
  | .space .. => space

local instance twoRunners : NeZero 2 := inferInstance

/-- A push and a projection of one branch, requested and claimed by runner 0, which starts the push. -/
def claimedTogether : List (Turn (Fin 2)) :=
  [.outside (.enqueueRefreshWork pushed), .tick 1, .outside (.requestWork projection), .reclaim 0,
    .claim 0 (fun _ => false) (uuids "a1" "a2"), .start 0 0]

def mnumberOn (_ : Fin 2) : WorkRunnerDeps := { mnumber := true }

theorem one_executor_per_key_quick :
    (∀ s ∈ (running mnumberOn).visited
        (claimedTogether ++ [.tick 5000, .finish 0 0 .done, .start 0 0]) (.initial 0),
      s.Exclusive) ∧
    ∀ turn ∈ (running mnumberOn).taken
        (claimedTogether ++ [.tick 5000, .finish 0 0 .done, .start 0 0]) (.initial 0),
      turn.1.StartsHeld turn.2 :=
  one_executor_per_key mnumberOn 0 _ (by decide)

/-- The push takes 64 seconds. Meanwhile the lease of the projection behind it runs out, runner 1
reclaims, claims and starts it; then runner 0 starts it as well. -/
def outwaited : List (Turn (Fin 2)) :=
  claimedTogether ++
    [.tick 10001, .beat 0 0, .tick 20001, .beat 0 0, .tick 30001, .beat 0 0, .tick 40001, .beat 0 0,
      .tick 50001, .beat 0 0, .tick 60001, .beat 0 0, .tick 60002, .reclaim 1,
      .claim 1 (fun _ => false) (uuids "b1" "b2"), .start 1 0, .tick 65000, .finish 0 0 .done,
      .start 0 0]

theorem outwaited_has_two_executors :
    ¬ ∀ turns, (∀ s ∈ (running mnumberOn).visited turns (.initial 0), s.Exclusive) ∧
      ∀ turn ∈ (running mnumberOn).taken turns (.initial 0), turn.1.StartsHeld turn.2 := by
  intro promised
  have twice : ∃ s ∈ (running mnumberOn).visited outwaited (.initial 0),
      ∃ lane ∈ (s.lanes 0)[0]?, ∃ other ∈ (s.lanes 1)[0]?, ∃ run ∈ lane.running,
        ∃ run' ∈ other.running, run.row.workKey = run'.row.workKey := by
    decide
  obtain ⟨s, reached, lane, first, other, second, run, inside, run', inside', key⟩ := twice
  have exclusive := (promised outwaited).1 s reached
  have same := exclusive 0 0 run.row 1 0 run'.row ⟨lane, first, congrArg _ inside⟩
    ⟨other, second, congrArg _ inside'⟩ key
  exact absurd same.1 (by decide)

end PrSearch.Work
