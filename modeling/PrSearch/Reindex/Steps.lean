import PrSearch.Reindex.Invariant

/-! # The steps of a reindex keep its invariant

A step of a writer is looked at through what it does to the accounts, a step of the runner through the
stage it leads to.
-/
namespace PrSearch.Reindex

open Jobs

variable {W S : Type*} [DecidableEq W] [DecidableEq S]

/-! ### Steps of a writer -/

/-- What a step of a writer leaves as it is. -/
structure Frame (s next : System W S) : Prop where
  runner : next.runner = s.runner
  moved : next.moved = s.moved
  activated : next.activated = s.activated
  target : next.job.target = s.job.target
  phase : next.job.progress.phase = s.job.progress.phase
  switchedAt : next.job.progress.switchedAt = s.job.progress.switchedAt
  running : next.job.state = .running → s.job.state = .running

variable {s next : System W S} {w : W} {fence : W → FencedWrite S} {job : ReindexJob}

theorem Frame.live (frame : Frame s next) (live : next.Live) : s.Live := by
  obtain ⟨unmoved, activated, running⟩ := live
  exact ⟨frame.moved ▸ unmoved, frame.activated ▸ activated, frame.running running⟩

/-- What remains to be shown of a step of a writer. -/
structure Kept (s next : System W S) : Prop where
  outside : ∀ w, w ∉ next.sharers → next.fence w = {}
  quiet : s.activated = false → next.owed = s.owed ∧ next.raised = s.raised
  stamps : ∀ operation ∈ next.owed, operation ∈ s.owed ∨ operation.stamp < next.clock
  clock : s.clock ≤ next.clock
  safe : s.moved = true → next.owed = s.owed ∧ next.raised = s.raised
  writes : next.Live → ∀ w, (next.fence w).Ok next.job
  accounts : next.Live → Accounts s.linkPending next.linkPending s.owed next.owed s.fence next.fence
  covered : next.Live → ∀ operation, Unrecorded s.fence operation →
    Unrecorded next.fence operation ∨
      next.job.target = linksAlias ∧ operation.source ∈ next.linkPending
  charged : next.Live → ∀ failure ∈ next.raised,
    failure ∈ s.raised ∨ ∃ w, failure ∈ (next.fence w).failures
  buffered : next.Live → ∀ w, ∀ failure ∈ (s.fence w).failures,
    ∃ w', failure ∈ (next.fence w').failures

variable {rows : LinkPendingTable S} {source : S} {index : String} {mirror : Mirror}
  {operation : WriteOperation S} {active : Option (Nat × ReindexJob)}
  {items : List (LinkPendingInput S)}

theorem mem_of_recorded {next : LinkPendingTable S} (recorded : Recorded rows next)
    (inside : source ∈ rows) : source ∈ next := by
  rw [← AList.lookup_isSome] at inside ⊢
  rcases recorded source with same | ⟨entry, now, -⟩
  · rw [same]
    exact inside
  · rw [now]
    rfl

theorem Inv.of_kept (inv : Inv s) (free : s.runner.holdsFence = false) (frame : Frame s next)
    (kept : Kept s next) :
    Inv next where
  outside := kept.outside
  excluded := by
    intro holds
    rw [frame.runner, free] at holds
    cases holds
  progress := by
    intro unmoved
    rw [frame.moved] at unmoved
    rw [frame.switchedAt, frame.phase, frame.activated]
    exact inv.progress unmoved
  quiet := by
    intro inactive
    rw [frame.activated] at inactive
    rw [(kept.quiet inactive).1, (kept.quiet inactive).2]
    exact inv.quiet inactive
  stamps := by
    intro operation inside
    rcases kept.stamps operation inside with old | new
    · exact Nat.lt_of_lt_of_le (inv.stamps operation old) kept.clock
    · exact new
  unclaimed := by
    intro queued
    rw [frame.runner] at queued
    rw [frame.activated]
    exact inv.unclaimed queued
  writes := kept.writes
  covered := by
    intro live operation inside
    rcases (kept.accounts live).owed operation inside with old | new
    · rcases inv.covered (frame.live live) operation old with unrecorded | ⟨links, pending⟩
      · exact kept.covered live operation unrecorded
      · refine .inr ⟨frame.target ▸ links, ?_⟩
        exact mem_of_recorded (kept.accounts live).recorded pending
    · exact .inl new
  charged := by
    intro live failure inside
    rcases kept.charged live failure inside with old | new
    · obtain ⟨w, buffered⟩ := inv.charged (frame.live live) failure old
      exact kept.buffered live w failure buffered
    · exact new
  hand := by
    intro live
    rw [frame.runner]
    exact (inv.hand (frame.live live)).of_accounts (kept.accounts live)
  decided := by
    rw [frame.runner]
    exact RunnerAt.decided_of_free free next
  safe := by
    intro moved
    rw [frame.moved] at moved
    rw [(kept.safe moved).1, (kept.safe moved).2]
    exact inv.safe moved

-- Whoever is inside the fence keeps the runner out of it.
theorem Inv.free_of_inside (inv : Inv s) (inside : (s.fence w).stage ≠ .outside) :
    w ∈ s.sharers ∧ s.runner.holdsFence = false := by
  have sharing : w ∈ s.sharers := by
    by_contra apart
    rw [inv.outside w apart] at inside
    exact inside rfl
  refine ⟨sharing, ?_⟩
  by_contra holds
  rw [inv.excluded (by simpa using holds)] at sharing
  cases sharing

theorem Accounts.refl (rows : LinkPendingTable S) (owed : List (Operation S))
    {fence' : W → FencedWrite S}
    (kept : ∀ operation, Unrecorded fence operation → Unrecorded fence' operation) :
    Accounts rows rows owed owed fence fence' where
  recorded := .refl rows
  owed := fun _ inside => .inl inside
  kept := fun operation unrecorded _ => kept operation unrecorded

variable {write : FencedWrite S}

/-- A writer goes on with buffers that hold at least what they held. -/
theorem unrecorded_update (grows : (fence w).unmirrored ⊆ write.unmirrored)
    (operation : Operation S) (unrecorded : Unrecorded fence operation) :
    Unrecorded (Function.update fence w write) operation := by
  obtain ⟨w', one, inside, same⟩ := unrecorded
  by_cases own : w' = w
  · subst own
    exact ⟨w', one, by rw [Function.update_self]; exact grows inside, same⟩
  · exact ⟨w', one, by rw [Function.update_of_ne own]; exact inside, same⟩

theorem buffered_update (grows : (fence w).failures ⊆ write.failures) (w' : W) :
    ∀ failure ∈ (fence w').failures,
      ∃ w'', failure ∈ (Function.update fence w write w'').failures := by
  intro failure inside
  by_cases own : w' = w
  · subst own
    exact ⟨w', by rw [Function.update_self]; exact grows inside⟩
  · exact ⟨w', by rw [Function.update_of_ne own]; exact inside⟩

theorem outside_update (inv : Inv s) (sharing : w ∈ s.sharers) (write : FencedWrite S) (w' : W)
    (apart : w' ∉ s.sharers) : Function.update s.fence w write w' = {} := by
  have other : w' ≠ w := fun same => apart (same ▸ sharing)
  rw [Function.update_of_ne other]
  exact inv.outside w' apart

theorem writes_update (ok : write.Ok job) (others : ∀ w', (fence w').Ok job) (w' : W) :
    (Function.update fence w write w').Ok job := by
  by_cases own : w' = w
  · subst own
    rw [Function.update_self]
    exact ok
  · rw [Function.update_of_ne own]
    exact others w'

/-- A writer moves, and its buffers hold what they held. -/
theorem Inv.move (inv : Inv s) (free : s.runner.holdsFence = false) {sharers : List W}
    (outside : ∀ w', w' ∉ sharers → Function.update s.fence w write w' = {})
    (grows : s.Live →
      (s.fence w).failures ⊆ write.failures ∧ (s.fence w).unmirrored ⊆ write.unmirrored)
    (ok : s.Live → write.Ok s.job) :
    Inv { s with fence := Function.update s.fence w write, sharers } := by
  refine inv.of_kept free ⟨rfl, rfl, rfl, rfl, rfl, rfl, id⟩ ?_
  exact {
    outside
    quiet := fun _ => ⟨rfl, rfl⟩
    stamps := fun operation inside => .inl inside
    clock := Nat.le_refl _
    safe := fun _ => ⟨rfl, rfl⟩
    writes := fun live => writes_update (ok live) (inv.writes live)
    accounts := fun live => Accounts.refl _ _ (unrecorded_update (grows live).2)
    covered := fun live operation unrecorded =>
      .inl (unrecorded_update (grows live).2 operation unrecorded)
    charged := fun _ failure inside => .inl inside
    buffered := fun live => buffered_update (grows live).1 }

theorem Inv.writer (inv : Inv s) (inside : (s.fence w).stage ≠ .outside)
    (failures : (s.fence w).failures ⊆ write.failures)
    (unmirrored : (s.fence w).unmirrored ⊆ write.unmirrored) (ok : s.Live → write.Ok s.job) :
    Inv (s.writer w write) := by
  obtain ⟨sharing, free⟩ := inv.free_of_inside inside
  exact inv.move free (outside_update inv sharing write) (fun _ => ⟨failures, unmirrored⟩) ok

/-- Nothing has been read yet. -/
theorem FencedWrite.Ok.unread (job : ReindexJob) {stage : FenceStage}
    (unread : stage = .outside ∨ stage = .locked) : ({ stage } : FencedWrite S).Ok job where
  shadow := by
    rcases unread with rfl | rfl <;> exact fun read => Bool.noConfusion read
  fresh := fun _ => ⟨rfl, rfl⟩
  failed := List.forall_mem_nil _
  pending := List.forall_mem_nil _
  unsent := fun _ => List.forall_mem_nil _
  pendings := List.forall_mem_nil _
  active := by
    rcases unread with rfl | rfl <;> rintro _ ⟨⟩
  failing := by
    rcases unread with rfl | rfl <;> rintro _ _ ⟨⟩

theorem subset_of_empty {old : FencedWrite S} (empty : old.failures = [] ∧ old.unmirrored = []) :
    old.failures ⊆ write.failures ∧ old.unmirrored ⊆ write.unmirrored := by
  rw [empty.1, empty.2]
  exact ⟨List.nil_subset _, List.nil_subset _⟩

/-- A writer may leave when its buffers hold nothing that counts, or when nothing counts any more. -/
theorem Inv.leave (inv : Inv s) (inside : (s.fence w).stage ≠ .outside)
    (settled : s.Live → (s.fence w).failures = [] ∧ (s.fence w).unmirrored = []) :
    Inv (s.leave w) := by
  obtain ⟨sharing, free⟩ := inv.free_of_inside inside
  refine inv.move free ?_ (fun live => subset_of_empty (settled live))
    fun _ => .unread s.job (.inl rfl)
  intro w' apart
  by_cases own : w' = w
  · subst own
    exact Function.update_self _ _ _
  · have other : w' ∉ s.sharers := by
      intro member
      exact apart (List.mem_filter.mpr ⟨member, by simpa using own⟩)
    rw [Function.update_of_ne own]
    exact inv.outside w' other

/-- The job has ended or was paused: from here on nothing has to be accounted for. -/
theorem Inv.stop (inv : Inv s) (job : ReindexJob) (target : job.target = s.job.target)
    (phase : job.progress.phase = s.job.progress.phase)
    (switchedAt : job.progress.switchedAt = s.job.progress.switchedAt)
    (stopped : job.state ≠ .running) :
    Inv { s with job } where
  outside := inv.outside
  excluded := inv.excluded
  progress := by
    intro unmoved
    rw [switchedAt, phase]
    exact inv.progress unmoved
  quiet := inv.quiet
  stamps := inv.stamps
  unclaimed := inv.unclaimed
  writes := fun live => absurd live.2.2 stopped
  covered := fun live => absurd live.2.2 stopped
  charged := fun live => absurd live.2.2 stopped
  hand := fun live => absurd live.2.2 stopped
  decided := by
    have decided := inv.decided
    cases at_ : s.runner with
    | counting attempt =>
      rw [at_] at decided
      exact ⟨target.trans decided.1, decided.2⟩
    | guarding attempt => rw [at_] at decided; exact decided
    | switching => rw [at_] at decided; exact decided
    | recordingSwitch tries => rw [at_] at decided; exact decided
    | _ => trivial
  safe := inv.safe

/-! #### One move after the other -/

theorem lock_inv (inv : Inv s) (step : s.fenceStep w .lock = some next) : Inv next := by
  simp only [System.fenceStep] at step
  cases stage : (s.fence w).stage with
  | outside =>
    simp only [stage] at step
    split at step
    next => cases step
    next free =>
      cases step
      have free : s.runner.holdsFence = false := by simpa using free
      -- whoever is outside has empty buffers
      refine inv.move free ?_ (fun live => subset_of_empty
        ((inv.writes live w).fresh (by rw [stage]; rfl))) fun _ => .unread s.job (.inr rfl)
      intro w' apart
      have notMem := List.not_mem_of_not_mem_cons apart
      have other : w' ≠ w := fun same => apart (same ▸ List.mem_cons_self)
      exact (Function.update_of_ne other _ _).trans (inv.outside w' notMem)
  | _ => simp [stage] at step

-- While the double writes are on, an operation that the target lacks goes into the buffers.
theorem write_grows (job : ReindexJob) (shadow : write.shadow = some index)
    (counted : List (Operation S)) (operation : WriteOperation S) :
    ∀ one ∈ write.owes counted operation,
      ∃ entry ∈ (write.write job.target counted operation).unmirrored, entry.operation = one := by
  intro one inside
  unfold FencedWrite.owes at inside
  rw [shadow] at inside
  cases cause : operation.mirror.cause with
  | none => simp [cause] at inside
  | some reason =>
    have member : one ∈ counted := by simpa [cause] using inside
    refine ⟨⟨one, reason⟩, ?_, rfl⟩
    simp only [FencedWrite.write, shadow, cause, List.mem_append, List.mem_map]
    exact .inr ⟨one, member, rfl⟩

theorem subset_write (aliasName : String) (counted : List (Operation S))
    (operation : WriteOperation S) (write : FencedWrite S) :
    write.failures ⊆ (write.write aliasName counted operation).failures ∧
      write.unmirrored ⊆ (write.write aliasName counted operation).unmirrored := by
  unfold FencedWrite.write
  split
  · exact ⟨List.Subset.refl _, List.Subset.refl _⟩
  · exact ⟨List.subset_append_left _ _, List.subset_append_left _ _⟩

theorem raises_subset (job : ReindexJob) (counted : List (Operation S))
    (operation : WriteOperation S) (write : FencedWrite S) :
    write.raises job.target operation ⊆ (write.write job.target counted operation).failures := by
  unfold FencedWrite.raises FencedWrite.write
  cases write.shadow with
  | none => exact List.nil_subset _
  | some index => exact List.subset_append_right _ _

theorem Mirror.failures_ne_nil (failed : mirror.cause = some .failed) (aliasName index : String) :
    mirror.failures aliasName index ≠ [] := by
  cases mirror <;> simp_all [Mirror.cause, Mirror.failures]

theorem Mirror.source_mem_pendings (pending : mirror.cause = some .pending)
    (aliasName index : String) (source : S) :
    source ∈ (mirror.pendings aliasName index source).map (·.source) := by
  cases mirror <;> simp_all [Mirror.cause, Mirror.pendings]

theorem Mirror.mem_pendings {aliasName : String} {pending : ShadowPending S}
    (inside : pending ∈ mirror.pendings aliasName index source) :
    pending.aliasName = aliasName ∧ pending.index = index := by
  cases mirror <;> simp_all [Mirror.pendings]

theorem System.mem_counted {one : Operation S} (inside : one ∈ s.counted operation) :
    one = ⟨s.clock, operation.source⟩ := by
  unfold System.counted at inside
  split at inside
  · exact List.mem_singleton.mp inside
  · exact absurd inside List.not_mem_nil

theorem System.counted_eq_nil (operation : WriteOperation S)
    (off : s.activated = false ∨ s.moved = true) : s.counted operation = [] := by
  unfold System.counted
  rcases off with off | off <;> simp [off]

theorem FencedWrite.Ok.written (ok : write.Ok s.job) (stage : write.stage = .writing)
    (allowed : ¬ (operation.mirror.cause = some .pending ∧ s.job.target ≠ linksAlias)) :
    (write.write s.job.target (s.counted operation) operation).Ok s.job := by
  have shadow : write.shadow = some s.job.progress.targetIndex := ok.shadow (by rw [stage]; rfl)
  -- what is new in the list of what the shadow lacks
  have added : ∀ one ∈ (write.write s.job.target (s.counted operation) operation).unmirrored,
      one ∈ write.unmirrored ∨
        operation.mirror.cause = some one.cause ∧ one.operation.source = operation.source := by
    intro one inside
    simp only [FencedWrite.write, shadow, List.mem_append] at inside
    rcases inside with old | new
    · exact .inl old
    · cases cause : operation.mirror.cause with
      | none => simp [cause] at new
      | some reason =>
        simp only [cause, List.mem_map] at new
        obtain ⟨counted, member, rfl⟩ := new
        exact .inr ⟨rfl, by rw [System.mem_counted member]⟩
  have same : (write.write s.job.target (s.counted operation) operation).stage = .writing := by
    simp [FencedWrite.write, shadow, stage]
  exact {
    shadow := by
      intro _
      simp [FencedWrite.write, shadow]
    fresh := by
      intro unread
      rw [same] at unread
      cases unread
    failed := by
      intro one inside failed
      rcases added one inside with old | ⟨cause, -⟩
      · have nonempty := ok.failed one old failed
        simp [FencedWrite.write, shadow, nonempty]
      · rw [failed] at cause
        have nonempty := Mirror.failures_ne_nil cause s.job.target s.job.progress.targetIndex
        simp [FencedWrite.write, shadow, nonempty]
    pending := by
      intro one inside pending
      rcases added one inside with old | ⟨cause, source⟩
      · obtain ⟨links, member⟩ := ok.pending one old pending
        refine ⟨links, ?_⟩
        simp only [FencedWrite.write, shadow, List.map_append, List.mem_append]
        exact .inl member
      · rw [pending] at cause
        have links : s.job.target = linksAlias := by
          by_contra other
          exact allowed ⟨cause, other⟩
        refine ⟨links, ?_⟩
        simp only [FencedWrite.write, shadow, List.map_append, List.mem_append]
        rw [source]
        exact .inr (Mirror.source_mem_pendings cause _ _ _)
    unsent := by
      intro returned
      rw [same] at returned
      cases returned
    pendings := by
      intro pending inside
      simp only [FencedWrite.write, shadow, List.mem_append] at inside
      rcases inside with old | new
      · exact ok.pendings pending old
      · exact Mirror.mem_pendings new
    active := by
      intro active at_
      rw [same] at at_
      cases at_
    failing := by
      intro active failures at_
      rw [same] at at_
      cases at_ }

theorem write_inv (inv : Inv s) (step : s.fenceStep w (.write operation) = some next) :
    Inv next := by
  simp only [System.fenceStep] at step
  cases stage : (s.fence w).stage with
  | writing =>
    simp only [stage] at step
    split at step
    next => cases step
    next allowed =>
      cases step
      obtain ⟨sharing, free⟩ := inv.free_of_inside (w := w) (by rw [stage]; simp)
      have grows := subset_write s.job.target (s.counted operation) operation (s.fence w)
      refine inv.of_kept free ⟨rfl, rfl, rfl, rfl, rfl, rfl, id⟩ ?_
      have nothing : s.activated = false ∨ s.moved = true →
          (s.write w operation).owed = s.owed ∧ (s.write w operation).raised = s.raised := by
        intro off
        have none_ : (s.fence w).owes (s.counted operation) operation = [] := by
          rw [System.counted_eq_nil operation off]
          exact ite_self _
        refine ⟨by simp [System.write, none_], ?_⟩
        rcases off with off | off <;> simp [System.write, off]
      exact {
        outside := outside_update inv sharing _
        quiet := fun inactive => nothing (.inl inactive)
        stamps := by
          intro one inside
          rcases List.mem_append.mp inside with old | new
          · exact .inl old
          · right
            unfold FencedWrite.owes at new
            split at new
            · cases new
            · rw [System.mem_counted new]
              exact Nat.lt_succ_self _
        clock := Nat.le_succ _
        safe := fun moved => nothing (.inr moved)
        writes := fun live =>
          writes_update ((inv.writes live w).written stage allowed) (inv.writes live)
        accounts := by
          intro live
          refine ⟨.refl _, ?_, fun one unrecorded _ => unrecorded_update grows.2 one unrecorded⟩
          intro one inside
          rcases List.mem_append.mp inside with old | new
          · exact .inl old
          · have shadow := (inv.writes live w).shadow (by rw [stage]; rfl)
            obtain ⟨entry, member, same⟩ := write_grows s.job shadow _ operation one new
            refine .inr ⟨w, entry, ?_, same⟩
            rw [show (s.write w operation).fence w = _ from Function.update_self _ _ _]
            exact member
        covered := fun _ one unrecorded => .inl (unrecorded_update grows.2 one unrecorded)
        charged := by
          intro live failure inside
          rcases List.mem_append.mp inside with old | new
          · exact .inl old
          · right
            refine ⟨w, ?_⟩
            rw [show (s.write w operation).fence w = _ from Function.update_self _ _ _]
            split at new
            · exact raises_subset s.job _ operation (s.fence w) new
            · cases new
        buffered := fun _ w' => buffered_update grows.1 w' }
  | _ => simp [stage] at step

/-- The step leaves nothing behind that has not been recorded: a write that ends with an exception has
no operation that only the serving index has had and no failure in its buffer, and one that returns
has swallowed no error of a request that had taken effect. -/
def System.Settles (s : System W S) : Action W S → Prop
  | .fence w .throw | .fence w .fault =>
      s.job.state = .running → (s.fence w).failures = [] ∧ (s.fence w).unmirrored = []
  | .fence w .return_ =>
      s.job.state = .running → ∀ one ∈ (s.fence w).unmirrored, one.cause ≠ .unsent
  | _ => True

theorem throw_inv (inv : Inv s) (settles : s.Settles (.fence w .throw))
    (step : s.fenceStep w .throw = some next) : Inv next := by
  simp only [System.fenceStep] at step
  cases stage : (s.fence w).stage with
  | writing =>
    simp only [stage] at step
    cases step
    exact inv.leave (by rw [stage]; simp) fun live => settles live.2.2
  | _ => simp [stage] at step

theorem fault_inv (inv : Inv s) (settles : s.Settles (.fence w .fault))
    (step : s.fenceStep w .fault = some next) : Inv next := by
  simp only [System.fenceStep] at step
  have settled : s.Live → (s.fence w).failures = [] ∧ (s.fence w).unmirrored = [] :=
    fun live => settles live.2.2
  cases stage : (s.fence w).stage with
  | outside => simp [stage] at step
  | writing => simp [stage] at step
  | _ =>
    simp only [stage] at step
    cases step
    exact inv.leave (by rw [stage]; simp) settled

-- A write that has collected nothing has mirrored everything it has made.
theorem FencedWrite.Ok.unmirrored_eq_nil (ok : write.Ok job)
    (sent : ∀ one ∈ write.unmirrored, one.cause ≠ .unsent) (failures : write.failures = [])
    (pendings : write.pendings = []) : write.unmirrored = [] := by
  rw [List.eq_nil_iff_forall_not_mem]
  intro one inside
  cases cause : one.cause with
  | failed => exact ok.failed one inside cause failures
  | pending =>
    have member := (ok.pending one inside cause).2
    rw [pendings] at member
    cases member
  | unsent => exact sent one inside cause

theorem return_inv (inv : Inv s) (settles : s.Settles (.fence w .return_))
    (step : s.fenceStep w .return_ = some next) : Inv next := by
  simp only [System.fenceStep] at step
  cases stage : (s.fence w).stage with
  | writing =>
    simp only [stage] at step
    have inside : (s.fence w).stage ≠ .outside := by rw [stage]; simp
    split at step
    next empty =>
      cases step
      refine inv.leave inside fun live => ⟨empty.1, ?_⟩
      have pendings : (s.fence w).pendings = [] := List.isEmpty_iff.mp empty.2
      exact (inv.writes live w).unmirrored_eq_nil (settles live.2.2) empty.1 pendings
    next =>
      cases step
      refine inv.writer inside (List.Subset.refl _) (List.Subset.refl _) fun live => ?_
      have ok := inv.writes live w
      exact {
        shadow := fun _ => ok.shadow (by rw [stage]; rfl)
        fresh := fun unread => Bool.noConfusion unread
        failed := ok.failed
        pending := ok.pending
        unsent := fun _ => settles live.2.2
        pendings := ok.pendings
        active := fun active at_ => nomatch at_
        failing := fun active failures at_ => nomatch at_ }
  | _ => simp [stage] at step

/-! #### The statements that read -/

-- The shadow is read inside the fence, so that the activation has come before it or comes after it.
theorem read_inv (inv : Inv s) (stage : (s.fence w).stage = .locked) :
    Inv (s.writer w
      { stage := .writing, shadow := findDualWriteShadows [s.job] s.job.target }) := by
  obtain ⟨sharing, free⟩ := inv.free_of_inside (w := w) (by rw [stage]; simp)
  refine inv.move free (outside_update inv sharing _)
    (fun live => subset_of_empty ((inv.writes live w).fresh (by rw [stage]; rfl))) ?_
  rintro ⟨unmoved, activated, running⟩
  obtain ⟨unswitched, phases⟩ := inv.progress unmoved
  have writes : dualWrites s.job = true := by
    simp [dualWrites, running, unswitched, phases activated]
  exact {
    shadow := fun _ => by rw [findDualWriteShadows_singleton, if_pos writes]
    fresh := fun unread => Bool.noConfusion unread
    failed := List.forall_mem_nil _
    pending := List.forall_mem_nil _
    unsent := fun returned => Bool.noConfusion returned
    pendings := List.forall_mem_nil _
    active := fun active at_ => nomatch at_
    failing := fun active failures at_ => nomatch at_ }

theorem find_inv (inv : Inv s) (stage : (s.fence w).stage = .finding) :
    Inv (s.writer w { s.fence w with stage := .pending (findActiveReindexRow [s.job]) }) := by
  have inside : (s.fence w).stage ≠ .outside := by rw [stage]; simp
  refine inv.writer inside (List.Subset.refl _) (List.Subset.refl _) fun live => ?_
  have ok := inv.writes live w
  have found : findActiveReindexRow [s.job] = some (0, s.job) := by
    rw [findActiveReindexRow_singleton, live.2.2]
    rfl
  exact {
    shadow := fun _ => ok.shadow (by rw [stage]; rfl)
    fresh := fun unread => Bool.noConfusion unread
    failed := ok.failed
    pending := ok.pending
    unsent := fun _ => ok.unsent (by rw [stage]; rfl)
    pendings := ok.pendings
    active := by
      intro active at_
      cases at_
      exact ⟨(0, s.job), found, live.2.2, rfl, rfl⟩
    failing := fun active failures at_ => nomatch at_ }

/-! #### The statements that record -/

-- All pending work of the write belongs to the job that it has written for.
theorem FencedWrite.Ok.accepted (ok : write.Ok job) (stage : write.stage = .pending active) :
    active.isSome = true ∧
      (acceptedPendings active write.pendings).map (·.source) = write.pendings.map (·.source) := by
  obtain ⟨row, rfl, running, target, index⟩ := ok.active active stage
  refine ⟨rfl, ?_⟩
  have all : write.pendings.filter (owned (some row)) = write.pendings := by
    rw [List.filter_eq_self]
    intro pending inside
    obtain ⟨aliasName, name⟩ := ok.pendings pending inside
    simp [owned, running, target, index, aliasName, name]
  unfold acceptedPendings
  rw [all, List.map_map]
  rfl

theorem mem_withoutRecorded {sources : List S} {unmirrored : List (Unmirrored S)}
    {one : Unmirrored S} :
    one ∈ withoutRecorded sources unmirrored ↔
      one ∈ unmirrored ∧ ¬ (one.cause = .pending ∧ one.operation.source ∈ sources) := by
  simp [withoutRecorded, ← imp_iff_not_or]

theorem recorded_of_recordLinkPending {next : LinkPendingTable S}
    (recorded : recordLinkPending items rows = some next) : Recorded rows next := by
  intro source
  rcases lookup_recordLinkPending recorded source with ⟨-, same⟩ | ⟨-, bumped⟩
  · exact .inl same
  · exact .inr bumped

-- A source that has been recorded has another row than before.
theorem mem_of_recordLinkPending {next : LinkPendingTable S}
    (recorded : recordLinkPending items rows = some next) (inside : source ∈ items.map (·.source)) :
    source ∈ next ∧ next.lookup source ≠ rows.lookup source := by
  rcases lookup_recordLinkPending recorded source with ⟨apart, -⟩ | ⟨-, entry, found, later⟩
  · exact absurd inside apart
  · refine ⟨AList.lookup_isSome.mp (by rw [found]; rfl), ?_⟩
    intro same
    rw [found] at same
    have gap := later entry same.symm
    omega

theorem record_inv (inv : Inv s) (stage : (s.fence w).stage = .pending active)
    {linkPending : LinkPendingTable S}
    (recorded : recordLinkPending (acceptedPendings active (s.fence w).pendings) s.linkPending =
      some linkPending) :
    Inv { s.writer w
        { s.fence w with
          stage := .failing active
            ((s.fence w).failures ++ promotedPendings active (s.fence w).pendings)
          unmirrored := withoutRecorded
            ((acceptedPendings active (s.fence w).pendings).map (·.source))
            (s.fence w).unmirrored } with
      linkPending } := by
  obtain ⟨sharing, free⟩ := inv.free_of_inside (w := w) (by rw [stage]; simp)
  refine inv.of_kept free ⟨rfl, rfl, rfl, rfl, rfl, rfl, id⟩ ?_
  -- an operation is still in the buffers, or its source has been recorded
  have moves : ∀ operation, Unrecorded s.fence operation →
      Unrecorded (Function.update s.fence w
        { s.fence w with
          stage := .failing active
            ((s.fence w).failures ++ promotedPendings active (s.fence w).pendings)
          unmirrored := withoutRecorded
            ((acceptedPendings active (s.fence w).pendings).map (·.source))
            (s.fence w).unmirrored }) operation ∨
        (∃ one ∈ (s.fence w).unmirrored, one.operation = operation ∧ one.cause = .pending) ∧
          operation.source ∈ (acceptedPendings active (s.fence w).pendings).map (·.source) := by
    rintro operation ⟨w', one, inside, rfl⟩
    by_cases own : w' = w
    · subst own
      by_cases taken : one.cause = .pending ∧
          one.operation.source ∈ (acceptedPendings active (s.fence w').pendings).map (·.source)
      · exact .inr ⟨⟨one, inside, rfl, taken.1⟩, taken.2⟩
      · refine .inl ⟨w', one, ?_, rfl⟩
        rw [Function.update_self]
        exact mem_withoutRecorded.mpr ⟨inside, taken⟩
    · exact .inl ⟨w', one, by rw [Function.update_of_ne own]; exact inside, rfl⟩
  exact {
    outside := outside_update inv sharing _
    quiet := fun _ => ⟨rfl, rfl⟩
    stamps := fun operation inside => .inl inside
    clock := Nat.le_refl _
    safe := fun _ => ⟨rfl, rfl⟩
    writes := by
      intro live
      have ok := inv.writes live w
      obtain ⟨found, sources⟩ := ok.accepted stage
      refine writes_update ?_ (inv.writes live)
      have failed : ∀ one ∈ withoutRecorded
          ((acceptedPendings active (s.fence w).pendings).map (·.source))
          (s.fence w).unmirrored, one.cause = .failed := by
        intro one inside
        obtain ⟨member, left⟩ := mem_withoutRecorded.mp inside
        cases cause : one.cause with
        | failed => rfl
        | pending =>
          refine absurd ⟨cause, ?_⟩ left
          rw [sources]
          exact (ok.pending one member cause).2
        | unsent => exact absurd cause (ok.unsent (by rw [stage]; rfl) one member)
      exact {
        shadow := fun _ => ok.shadow (by rw [stage]; rfl)
        fresh := fun unread => Bool.noConfusion unread
        failed := fun one inside => ok.failed one (mem_withoutRecorded.mp inside).1
        pending := fun one inside => ok.pending one (mem_withoutRecorded.mp inside).1
        unsent := by
          intro _ one inside
          rw [failed one inside]
          simp
        pendings := ok.pendings
        active := fun active at_ => nomatch at_
        failing := by
          intro active' failures at_
          cases at_
          exact ⟨found, List.subset_append_left _ _, failed⟩ }
    accounts := by
      intro live
      refine ⟨recorded_of_recordLinkPending recorded, fun one inside => .inl inside, ?_⟩
      intro operation unrecorded same
      rcases moves operation unrecorded with still | ⟨-, source⟩
      · exact still
      · exact absurd same (mem_of_recordLinkPending recorded source).2
    covered := by
      intro live operation unrecorded
      rcases moves operation unrecorded with still | ⟨⟨one, inside, rfl, cause⟩, source⟩
      · exact .inl still
      · have links := ((inv.writes live w).pending one inside cause).1
        exact .inr ⟨links, (mem_of_recordLinkPending recorded source).1⟩
    charged := fun _ failure inside => .inl inside
    buffered := by
      intro _ w'
      refine buffered_update ?_ w'
      exact List.Subset.refl (s.fence w).failures }

theorem charge_inv (inv : Inv s) {failures : List ShadowFailure}
    (stage : (s.fence w).stage = .failing active failures)
    (charged : job =
      if active.isSome then (recordShadowFailures failures s.job).getD s.job else s.job) :
    Inv ({ s with job }.leave w) := by
  have inside : (s.fence w).stage ≠ .outside := by rw [stage]; simp
  cases recorded : recordShadowFailures failures s.job with
  | some updated =>
    obtain ⟨-, failed, target, phase, switchedAt⟩ := recordShadowFailures_eq_some recorded
    rw [recorded] at charged
    by_cases found : active.isSome
    · -- the job has failed, and nothing counts any more
      have same : job = updated := by simpa [found] using charged
      subst same
      have stopped : job.state ≠ .running := by rw [failed]; simp
      refine (inv.stop job target phase switchedAt stopped).leave inside fun live => ?_
      exact absurd live.2.2 stopped
    · have same : job = s.job := by simpa [found] using charged
      subst same
      refine inv.leave inside fun live => ?_
      exact absurd ((inv.writes live w).failing active failures stage).1 found
  | none =>
    rw [recorded] at charged
    have same : job = s.job := by simpa using charged
    subst same
    refine inv.leave inside fun live => ?_
    -- a running job would have taken any failure
    have none_ : failures = [] := by
      by_contra some_
      obtain ⟨updated, taken⟩ := recordShadowFailures_of_running some_ live.2.2
      rw [recorded] at taken
      cases taken
    obtain ⟨-, all, failed⟩ := (inv.writes live w).failing active failures stage
    have buffer : (s.fence w).failures = [] := by
      rw [none_] at all
      exact List.subset_nil.mp all
    refine ⟨buffer, ?_⟩
    rw [List.eq_nil_iff_forall_not_mem]
    intro one member
    exact (inv.writes live w).failed one member (failed one member) buffer

theorem proceed_inv (inv : Inv s) (step : s.fenceStep w .proceed = some next) : Inv next := by
  simp only [System.fenceStep, System.fenceProceed] at step
  cases stage : (s.fence w).stage with
  | outside => simp [stage] at step
  | writing => simp [stage] at step
  | locked =>
    simp only [stage] at step
    cases step
    exact read_inv inv stage
  | finding =>
    simp only [stage] at step
    cases step
    exact find_inv inv stage
  | pending active =>
    simp only [stage] at step
    obtain ⟨linkPending, recorded, rfl⟩ := Option.map_eq_some_iff.mp step
    exact record_inv inv stage recorded
  | failing active failures =>
    simp only [stage] at step
    cases step
    exact charge_inv inv stage rfl

theorem fenceStep_inv {move : FenceMove S} (inv : Inv s) (settles : s.Settles (.fence w move))
    (step : s.fenceStep w move = some next) : Inv next := by
  cases move with
  | lock => exact lock_inv inv step
  | write operation => exact write_inv inv step
  | return_ => exact return_inv inv settles step
  | throw => exact throw_inv inv settles step
  | proceed => exact proceed_inv inv step
  | fault => exact fault_inv inv settles step

end PrSearch.Reindex
