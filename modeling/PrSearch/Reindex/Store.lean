import Mathlib.Data.List.AList
import PrSearch.Jobs.Store

/-! # The job rows of a reindex

A reindex keeps its whole state in its job row: the target of the job is the alias that is moved, and
the progress says how far it is. Sources whose links have to be derived again before the alias may
move stand in a table of their own, keyed by the source, where a row that is recorded again gets the
next generation.
-/
namespace PrSearch.Reindex

open Jobs

inductive ReindexPhase
  | prepare
  | dualWrite
  | backfill
  | verify
  | cutover
  | retention
  deriving DecidableEq, Repr

/-- `DUAL_WRITE_PHASES` -/
def dualWritePhases : List ReindexPhase := [.dualWrite, .backfill, .verify, .cutover]

structure ReindexProgress where
  phase : ReindexPhase
  sourceIndex : String
  targetIndex : String
  failures : Nat := 0
  failureSamples : List String := []
  switchedAt : Option String := none

abbrev ReindexJob := JobRow ReindexProgress

/-! ### Reading the rows -/

/-- The first active row, with its id. -/
def findActiveReindexRow (jobs : List ReindexJob) : Option (Nat × ReindexJob) :=
  (jobs.zipIdx.find? fun entry => entry.1.state.active).map fun entry => (entry.2, entry.1)

/-- A row that asks for its writes to be made twice. -/
def dualWrites (job : ReindexJob) : Bool :=
  job.state = .running && job.progress.switchedAt.isNone && dualWritePhases.contains job.progress.phase

/-- `findDualWriteShadows`, at one alias. -/
def findDualWriteShadows (jobs : List ReindexJob) (aliasName : String) : Option String :=
  ((jobs.filter fun job => dualWrites job && job.target = aliasName).getLast?).map
    (·.progress.targetIndex)

/-! ### Writing them -/

/-- `FAILURE_SAMPLE_LIMIT` -/
def failureSampleLimit : Nat := 20

structure ShadowFailure where
  aliasName : String
  index : String
  operation : String
  reason : String
  deriving DecidableEq

def ShadowFailure.sample (failure : ShadowFailure) : String :=
  failure.operation ++ " " ++ failure.index ++ ": " ++ failure.reason

def recordShadowFailures (failures : List ShadowFailure) (job : ReindexJob) : Option ReindexJob :=
  if failures = [] then none
  else
    job.updateFrom [.running] fun row =>
      { row with
        state := .failed
        error := row.error <|> some "shadow_write_failed"
        progress :=
          { row.progress with
            failures := row.progress.failures + failures.length
            failureSamples := (failures.take failureSampleLimit).map ShadowFailure.sample } }

/-- `patchReindexProgress`, with a phase. -/
def patchPhase (phase : ReindexPhase) (job : ReindexJob) : ReindexJob :=
  { job with progress := { job.progress with phase := phase } }

/-- `patchReindexProgress`, once the alias has moved. -/
def patchSwitched (at_ : String) (job : ReindexJob) : ReindexJob :=
  { job with progress := { job.progress with phase := .retention, switchedAt := some at_ } }

/-! ### Sources that are pending -/

inductive LinkPendingReason
  | partialUpdateDocumentMissing
  | deriveIncomplete
  deriving DecidableEq, Repr

structure LinkPendingInput (S : Type*) where
  source : S
  reason : LinkPendingReason
  sampleLinkId : Option String := none

/-- The columns of a pending row beyond its source. -/
structure LinkPendingEntry where
  reason : LinkPendingReason
  generation : Nat
  sampleLinkId : Option String

structure LinkPendingRow (S : Type*) where
  source : S
  generation : Nat

variable {S : Type*} [DecidableEq S]

abbrev LinkPendingTable (S : Type*) := AList fun _ : S => LinkPendingEntry

/-- The row that one item leaves: a new one, or the one that was there with the next generation. -/
def pendingEntry (item : LinkPendingInput S) : Option LinkPendingEntry → LinkPendingEntry
  | none => ⟨item.reason, 1, item.sampleLinkId⟩
  | some row => ⟨item.reason, row.generation + 1, item.sampleLinkId <|> row.sampleLinkId⟩

def upsertPending (rows : LinkPendingTable S) (item : LinkPendingInput S) : LinkPendingTable S :=
  rows.insert item.source (pendingEntry item (rows.lookup item.source))

/-- `recordLinkPending`. The statement fails when it would change one row twice. -/
def recordLinkPending (items : List (LinkPendingInput S)) (rows : LinkPendingTable S) :
    Option (LinkPendingTable S) :=
  if (items.map (·.source)).Nodup then
    some (items.foldl upsertPending rows)
  else none

/-- The sources of the table, in the order of the database. -/
def pendingRows (le : S → S → Bool) (rows : LinkPendingTable S) : List (LinkPendingRow S) :=
  (rows.entries.map fun entry => ⟨entry.1, entry.2.generation⟩).mergeSort fun a b => le a.source b.source

/-- `listLinkPending`: a page of at most `limit` rows behind the one of `after`. -/
def listLinkPending (le : S → S → Bool) (rows : LinkPendingTable S) (limit : Nat)
    (after : Option S) : List (LinkPendingRow S) :=
  ((pendingRows le rows).filter fun row => after.all fun last => !le row.source last).take limit

/-- `deleteLinkPending`: only the row of the generation that was read. -/
def deleteLinkPending (row : LinkPendingRow S) (rows : LinkPendingTable S) : LinkPendingTable S :=
  match rows.lookup row.source with
  | some entry => if entry.generation = row.generation then rows.erase row.source else rows
  | none => rows

def countLinkPending (rows : LinkPendingTable S) : Nat := rows.entries.length

variable {failures : List ShadowFailure} {job : ReindexJob} {jobs : List ReindexJob}
  {rows : LinkPendingTable S}

/-! ### What the statements do -/

theorem recordShadowFailures_eq_some {updated : ReindexJob}
    (recorded : recordShadowFailures failures job = some updated) :
    job.state = .running ∧ updated.state = .failed ∧ updated.target = job.target ∧
      updated.progress.phase = job.progress.phase ∧
      updated.progress.switchedAt = job.progress.switchedAt := by
  unfold recordShadowFailures at recorded
  split at recorded
  next => cases recorded
  next =>
    obtain ⟨inside, rfl⟩ := updateFrom_eq_some recorded
    exact ⟨List.mem_singleton.mp inside, rfl, rfl, rfl, rfl⟩

/-- A failure is recorded on a running job. -/
theorem recordShadowFailures_of_running (some_ : failures ≠ []) (running : job.state = .running) :
    ∃ updated, recordShadowFailures failures job = some updated := by
  unfold recordShadowFailures JobRow.updateFrom
  simp [some_, running]

/-- With one job, the shadow of its alias is the target of its reindex while it writes twice. -/
theorem findDualWriteShadows_singleton (job : ReindexJob) :
    findDualWriteShadows [job] job.target =
      if dualWrites job then some job.progress.targetIndex else none := by
  unfold findDualWriteShadows
  cases writes : dualWrites job <;> simp [writes]

theorem findActiveReindexRow_singleton (job : ReindexJob) :
    findActiveReindexRow [job] = if job.state.active then some (0, job) else none := by
  unfold findActiveReindexRow
  cases active : job.state.active <;> simp [List.zipIdx, active]

theorem mem_of_findActiveReindexRow {found : Nat × ReindexJob}
    (first : findActiveReindexRow jobs = some found) :
    jobs[found.1]? = some found.2 ∧ found.2.state.active = true := by
  obtain ⟨entry, there, rfl⟩ := Option.map_eq_some_iff.mp first
  have active := List.find?_some there
  exact ⟨List.mem_zipIdx_iff_getElem?.mp (List.mem_of_find?_eq_some there), active⟩

theorem not_activeAt_of_findActiveReindexRow (none_ : findActiveReindexRow jobs = none)
    (jobId : Nat) : ¬ ActiveAt jobs jobId := by
  rintro ⟨row, found, active⟩
  have inactive := List.find?_eq_none.mp (Option.map_eq_none_iff.mp none_) (row, jobId)
    (List.mem_zipIdx_iff_getElem?.mpr found)
  exact inactive active

-- One item changes the row of its source only.
theorem lookup_foldl_upsertPending_of_notMem (items : List (LinkPendingInput S)) (source : S)
    (rows : LinkPendingTable S) (other : source ∉ items.map (·.source)) :
    (items.foldl upsertPending rows).lookup source = rows.lookup source := by
  induction items generalizing rows with
  | nil => rfl
  | cons item rest ih =>
    simp only [List.map_cons, List.mem_cons, not_or] at other
    rw [List.foldl_cons, ih _ other.2]
    exact AList.lookup_insert_ne other.1

theorem lookup_foldl_upsertPending_of_mem (items : List (LinkPendingInput S))
    (rows : LinkPendingTable S) (nodup : (items.map (·.source)).Nodup) :
    ∀ item ∈ items, (items.foldl upsertPending rows).lookup item.source =
      some (pendingEntry item (rows.lookup item.source)) := by
  induction items generalizing rows with
  | nil => exact List.forall_mem_nil _
  | cons first rest ih =>
    rw [List.map_cons, List.nodup_cons] at nodup
    intro item inside
    rw [List.foldl_cons]
    rcases List.mem_cons.mp inside with rfl | later
    · rw [lookup_foldl_upsertPending_of_notMem rest item.source _ nodup.1]
      exact AList.lookup_insert _
    · rw [ih _ nodup.2 item later]
      have other : item.source ≠ first.source := by
        intro same
        exact nodup.1 (same ▸ List.mem_map_of_mem later)
      rw [show (upsertPending rows first).lookup item.source = rows.lookup item.source from
        AList.lookup_insert_ne other]

/-- What is recorded has its row afterwards, of a later generation than the one before. -/
theorem lookup_recordLinkPending {items : List (LinkPendingInput S)} {next : LinkPendingTable S}
    (recorded : recordLinkPending items rows = some next) (source : S) :
    (source ∉ items.map (·.source) ∧ next.lookup source = rows.lookup source) ∨
      source ∈ items.map (·.source) ∧ ∃ entry, next.lookup source = some entry ∧
        ∀ before, rows.lookup source = some before → entry.generation = before.generation + 1 := by
  unfold recordLinkPending at recorded
  split at recorded
  next nodup =>
    cases recorded
    by_cases inside : source ∈ items.map (·.source)
    · right
      obtain ⟨item, member, rfl⟩ := List.mem_map.mp inside
      refine ⟨inside, _, lookup_foldl_upsertPending_of_mem items rows nodup item member, ?_⟩
      intro before found
      rw [found]
      rfl
    · exact .inl ⟨inside, lookup_foldl_upsertPending_of_notMem items source rows inside⟩
  next => cases recorded

/-- The rows of a page are rows of the table. -/
theorem lookup_of_mem_listLinkPending {le : S → S → Bool} {limit : Nat} {after : Option S}
    {row : LinkPendingRow S} (listed : row ∈ listLinkPending le rows limit after) :
    ∃ entry, rows.lookup row.source = some entry ∧ entry.generation = row.generation := by
  have inside := (List.mem_filter.mp (List.mem_of_mem_take listed)).1
  rw [pendingRows, List.mem_mergeSort] at inside
  obtain ⟨⟨source, entry⟩, member, rfl⟩ := List.mem_map.mp inside
  exact ⟨entry, AList.mem_lookup_iff.mpr member, rfl⟩

/-- No source stands twice on a page. -/
theorem nodup_listLinkPending (le : S → S → Bool) (rows : LinkPendingTable S) (limit : Nat)
    (after : Option S) : ((listLinkPending le rows limit after).map (·.source)).Nodup := by
  have sources : (pendingRows le rows).map (·.source) |>.Perm rows.keys := by
    unfold pendingRows
    refine ((List.mergeSort_perm _ _).map _).trans ?_
    rw [List.map_map]
    exact List.Perm.refl _
  have nodup : ((pendingRows le rows).map (·.source)).Nodup :=
    sources.nodup_iff.mpr rows.keys_nodup
  exact ((List.take_sublist limit _).trans List.filter_sublist).map _ |>.nodup nodup

theorem lookup_deleteLinkPending (row : LinkPendingRow S) (rows : LinkPendingTable S) (source : S) :
    (deleteLinkPending row rows).lookup source = rows.lookup source ∨
      source = row.source ∧
        ∃ entry, rows.lookup source = some entry ∧ entry.generation = row.generation := by
  unfold deleteLinkPending
  split
  next entry found =>
    split
    next same =>
      by_cases own : source = row.source
      · exact .inr ⟨own, entry, own ▸ found, same⟩
      · exact .inl (AList.lookup_erase_ne own)
    next => exact .inl rfl
  next => exact .inl rfl

/-- A table that counts no rows has none. -/
theorem lookup_of_countLinkPending_eq_zero (empty : countLinkPending rows = 0) (source : S) :
    rows.lookup source = none := by
  have none_ : rows.entries = [] := List.length_eq_zero_iff.mp empty
  rw [AList.lookup_eq_none, AList.mem_keys, AList.keys, none_]
  exact List.not_mem_nil

end PrSearch.Reindex
