import PrSearch.Reindex.Run

/-! # What holds during a reindex

While the job is running and the alias has not moved, whatever the target lacks is accounted for: a
writer inside the fence still has it in its buffers, or its source is pending. A row that the runner
has read and is deriving stays in the table, of the same generation as long as nothing was recorded
for its source.
-/
namespace PrSearch.Reindex

open Jobs

variable {W S : Type*} [DecidableEq W] [DecidableEq S]

/-- The double writes are on. -/
def System.Live (s : System W S) : Prop :=
  s.moved = false ∧ s.activated = true ∧ s.job.state = .running

/-- A writer inside the fence still has the operation to record. -/
def Unrecorded (fence : W → FencedWrite S) (operation : Operation S) : Prop :=
  ∃ w, ∃ one ∈ (fence w).unmirrored, one.operation = operation

/-! ### The writers -/

/-- The writer has read the shadow. -/
def FenceStage.hasRead : FenceStage → Bool
  | .outside | .locked => false
  | _ => true

/-- The callback has returned. -/
def FenceStage.hasReturned : FenceStage → Bool
  | .outside | .locked | .writing => false
  | _ => true

structure FencedWrite.Ok (job : ReindexJob) (write : FencedWrite S) : Prop where
  shadow : write.stage.hasRead = true → write.shadow = some job.progress.targetIndex
  fresh : write.stage.hasRead = false → write.failures = [] ∧ write.unmirrored = []
  failed : ∀ one ∈ write.unmirrored, one.cause = .failed → write.failures ≠ []
  pending : ∀ one ∈ write.unmirrored, one.cause = .pending →
    job.target = linksAlias ∧ one.operation.source ∈ write.pendings.map (·.source)
  unsent : write.stage.hasReturned = true → ∀ one ∈ write.unmirrored, one.cause ≠ .unsent
  pendings : ∀ pending ∈ write.pendings,
    pending.aliasName = job.target ∧ pending.index = job.progress.targetIndex
  active : ∀ active, write.stage = .pending active →
    ∃ row, active = some row ∧ row.2.state = .running ∧ row.2.target = job.target ∧
      row.2.progress.targetIndex = job.progress.targetIndex
  failing : ∀ active failures, write.stage = .failing active failures →
    active.isSome = true ∧ write.failures ⊆ failures ∧
      ∀ one ∈ write.unmirrored, one.cause = .failed

/-! ### The rows in the hands of the runner -/

/-- The row has not been removed, and is not of an earlier generation. -/
def Present (rows : LinkPendingTable S) (row : LinkPendingRow S) : Prop :=
  ∃ entry, rows.lookup row.source = some entry ∧ row.generation ≤ entry.generation

/-- Nothing was recorded for the source since the row was read. -/
def Unchanged (rows : LinkPendingTable S) (row : LinkPendingRow S) : Prop :=
  ∃ entry, rows.lookup row.source = some entry ∧ entry.generation = row.generation

def RecoveryStage.Hand (rows : LinkPendingTable S) (owed : List (Operation S))
    (fence : W → FencedWrite S) (page : List (LinkPendingRow S)) : RecoveryStage S → Prop
  | .deriving_ row since =>
      Present rows row ∧ row.source ∉ page.map (·.source) ∧
        (Unchanged rows row → ∀ operation ∈ owed, operation.source = row.source →
          operation.stamp < since ∨ Unrecorded fence operation)
  | .derived row =>
      Present rows row ∧ row.source ∉ page.map (·.source) ∧
        (Unchanged rows row → ∀ operation ∈ owed, operation.source = row.source →
          Unrecorded fence operation)
  | _ => True

structure Recovery.Hand (rows : LinkPendingTable S) (owed : List (Operation S))
    (fence : W → FencedWrite S) (recovery : Recovery S) : Prop where
  nodup : (recovery.page.map (·.source)).Nodup
  present : ∀ row ∈ recovery.page, Present rows row
  stage : recovery.stage.Hand rows owed fence recovery.page

def RunnerAt.Hand (rows : LinkPendingTable S) (owed : List (Operation S))
    (fence : W → FencedWrite S) : RunnerAt S → Prop
  | .recover recovery => recovery.Hand rows owed fence
  | _ => True

/-! ### The decision -/

/-- What the runner has found out inside the exclusive fence. -/
def RunnerAt.Decided (s : System W S) : RunnerAt S → Prop
  | .counting _ =>
      s.job.target = linksAlias ∧ s.raised = [] ∧
        ∀ operation ∈ s.owed, operation.source ∈ s.linkPending
  | .guarding _ | .switching => s.raised = [] ∧ s.owed = []
  | .recordingSwitch _ => s.moved = true
  | _ => True

/-! ### The invariant -/

structure Inv (s : System W S) : Prop where
  outside : ∀ w, w ∉ s.sharers → s.fence w = {}
  excluded : s.runner.holdsFence = true → s.sharers = []
  progress : s.moved = false → s.job.progress.switchedAt = none ∧
    (s.activated = true → s.job.progress.phase ∈ dualWritePhases)
  quiet : s.activated = false → s.owed = [] ∧ s.raised = []
  stamps : ∀ operation ∈ s.owed, operation.stamp < s.clock
  unclaimed : s.runner = .queued → s.activated = false
  writes : s.Live → ∀ w, (s.fence w).Ok s.job
  covered : s.Live → ∀ operation ∈ s.owed, Unrecorded s.fence operation ∨
    s.job.target = linksAlias ∧ operation.source ∈ s.linkPending
  charged : s.Live → ∀ failure ∈ s.raised, ∃ w, failure ∈ (s.fence w).failures
  hand : s.Live → s.runner.Hand s.linkPending s.owed s.fence
  decided : s.runner.Decided s
  safe : s.moved = true → s.owed = [] ∧ s.raised = []

theorem start_inv (job : ReindexJob) (linkPending : LinkPendingTable S) :
    Inv (System.start job linkPending : System W S) where
  outside := fun _ _ => rfl
  excluded := fun holds => Bool.noConfusion holds
  progress := by
    intro unmoved
    refine ⟨?_, fun activated => Bool.noConfusion activated⟩
    simpa [System.start] using unmoved
  quiet := fun _ => ⟨rfl, rfl⟩
  stamps := List.forall_mem_nil _
  unclaimed := fun _ => rfl
  writes := fun live => Bool.noConfusion live.2.1
  covered := fun live => Bool.noConfusion live.2.1
  charged := fun live => Bool.noConfusion live.2.1
  hand := fun live => Bool.noConfusion live.2.1
  decided := trivial
  safe := fun _ => ⟨rfl, rfl⟩

variable {runner : RunnerAt S} {rows next : LinkPendingTable S} {row : LinkPendingRow S}

/-! ### Frames -/

-- Off the exclusive fence nothing has been decided.
theorem RunnerAt.decided_of_free (free : runner.holdsFence = false) (s : System W S) :
    runner.Decided s := by
  cases runner <;> first | trivial | cases free

/-- The rows change only by being recorded. -/
def Recorded (rows next : LinkPendingTable S) : Prop :=
  ∀ source, next.lookup source = rows.lookup source ∨
    ∃ entry, next.lookup source = some entry ∧
      ∀ before, rows.lookup source = some before → entry.generation = before.generation + 1

theorem Recorded.refl (rows : LinkPendingTable S) : Recorded rows rows := fun _ => .inl rfl

theorem Present.of_recorded (recorded : Recorded rows next) (present : Present rows row) :
    Present next row := by
  obtain ⟨before, found, behind⟩ := present
  rcases recorded row.source with same | ⟨entry, now, later⟩
  · exact ⟨before, same ▸ found, behind⟩
  · refine ⟨entry, now, ?_⟩
    have gap := later before found
    omega

-- A row whose source was recorded in the meantime is of another generation.
theorem Unchanged.of_recorded (recorded : Recorded rows next) (present : Present rows row)
    (unchanged : Unchanged next row) :
    Unchanged rows row ∧ next.lookup row.source = rows.lookup row.source := by
  obtain ⟨before, found, behind⟩ := present
  obtain ⟨now, lookup, generation⟩ := unchanged
  rcases recorded row.source with same | ⟨entry, bumped, later⟩
  · exact ⟨⟨now, same ▸ lookup, generation⟩, same⟩
  · have gap := later before found
    have entry_eq : entry = now := Option.some.inj (bumped.symm.trans lookup)
    rw [entry_eq] at gap
    omega

/-- What a step may do to the accounts while the runner is not stepping. -/
structure Accounts (rows next : LinkPendingTable S) (owed owed' : List (Operation S))
    (fence fence' : W → FencedWrite S) : Prop where
  recorded : Recorded rows next
  owed : ∀ operation ∈ owed', operation ∈ owed ∨ Unrecorded fence' operation
  kept : ∀ operation, Unrecorded fence operation →
    next.lookup operation.source = rows.lookup operation.source → Unrecorded fence' operation

theorem RunnerAt.Hand.of_accounts {owed owed' : List (Operation S)}
    {fence fence' : W → FencedWrite S} (accounts : Accounts rows next owed owed' fence fence')
    (hand : runner.Hand rows owed fence) : runner.Hand next owed' fence' := by
  cases runner with
  | recover recovery =>
    obtain ⟨nodup, present, stage⟩ := hand
    refine ⟨nodup, fun row inside => (present row inside).of_recorded accounts.recorded, ?_⟩
    cases at_ : recovery.stage with
    | deriving_ row since =>
      rw [at_] at stage
      obtain ⟨there, apart, before⟩ := stage
      refine ⟨there.of_recorded accounts.recorded, apart, ?_⟩
      intro unchanged operation inside own
      obtain ⟨still, same⟩ := unchanged.of_recorded accounts.recorded there
      rcases accounts.owed operation inside with old | new
      · rcases before still operation old own with early | unrecorded
        · exact .inl early
        · exact .inr (accounts.kept operation unrecorded (own ▸ same))
      · exact .inr new
    | derived row =>
      rw [at_] at stage
      obtain ⟨there, apart, unrecorded⟩ := stage
      refine ⟨there.of_recorded accounts.recorded, apart, ?_⟩
      intro unchanged operation inside own
      obtain ⟨still, same⟩ := unchanged.of_recorded accounts.recorded there
      rcases accounts.owed operation inside with old | new
      · exact accounts.kept operation (unrecorded still operation old own) (own ▸ same)
      · exact new
    | listing => trivial
    | page => trivial
    | roundEnd => trivial
  | _ => trivial

end PrSearch.Reindex
