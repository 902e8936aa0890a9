import PrSearch.Reindex.Steps

/-! # The steps of the runner

Most steps of the runner only lead it to its next stage. A derivation that has been stored settles
what was owed to its source when it began; a row that is removed is one for which nothing has been
recorded since it was read.
-/
namespace PrSearch.Reindex

open Jobs

variable {W S : Type*} [DecidableEq W] [DecidableEq S]

variable {s next : System W S} {runner : RunnerAt S} {recovery : Recovery S} {le : S → S → Bool}

/-- The runner goes on, and nothing else changes. -/
theorem Inv.at_ (inv : Inv s) (fence : runner.holdsFence = true → s.sharers = [])
    (claimed : runner ≠ .queued) (hand : s.Live → runner.Hand s.linkPending s.owed s.fence)
    (decided : runner.Decided s) :
    Inv (s.at_ runner) where
  outside := inv.outside
  excluded := fence
  progress := inv.progress
  quiet := inv.quiet
  stamps := inv.stamps
  unclaimed := fun queued => absurd queued claimed
  writes := inv.writes
  covered := inv.covered
  charged := inv.charged
  hand := hand
  decided := by
    cases runner with
    | counting attempt => exact decided
    | guarding attempt => exact decided
    | switching => exact decided
    | recordingSwitch tries => exact decided
    | _ => trivial
  safe := inv.safe

/-- A stage that holds neither the fence nor rows. -/
def RunnerAt.Plain : RunnerAt S → Prop
  | .queued | .recover _ => False
  | runner => runner.holdsFence = false

theorem Inv.plain (inv : Inv s) (plain : runner.Plain) : Inv (s.at_ runner) := by
  have free : runner.holdsFence = false := by
    cases runner <;> first | exact plain | cases plain
  refine inv.at_ (fun holds => ?_) ?_ (fun _ => ?_) (RunnerAt.decided_of_free free s)
  · rw [free] at holds
    cases holds
  · rintro rfl
    exact plain
  · cases runner <;> first | trivial | cases plain

theorem Inv.patch (inv : Inv s) (phase : ReindexPhase) (dual : phase ∈ dualWritePhases) :
    Inv { s with job := patchPhase phase s.job } where
  outside := inv.outside
  excluded := inv.excluded
  progress := fun unmoved => ⟨(inv.progress unmoved).1, fun _ => dual⟩
  quiet := inv.quiet
  stamps := inv.stamps
  unclaimed := inv.unclaimed
  writes := by
    intro live w
    obtain ⟨shadow, fresh, failed, pending, unsent, pendings, active, failing⟩ := inv.writes live w
    exact ⟨shadow, fresh, failed, pending, unsent, pendings, active, failing⟩
  covered := inv.covered
  charged := inv.charged
  hand := inv.hand
  decided := by
    have decided := inv.decided
    cases at_ : s.runner with
    | counting attempt => rw [at_] at decided; exact decided
    | guarding attempt => rw [at_] at decided; exact decided
    | switching => rw [at_] at decided; exact decided
    | recordingSwitch tries => rw [at_] at decided; exact decided
    | _ => trivial
  safe := inv.safe

/-! ### Claiming and activating -/

theorem claim_inv (inv : Inv s) (queued : s.runner = .queued) {job : ReindexJob}
    (claimed : s.job.claim = some job) : Inv { s.at_ .prepare with job } := by
  obtain ⟨-, rfl⟩ := claim_eq_some claimed
  have inactive := inv.unclaimed queued
  have idle : ∀ {P : Prop}, (s.at_ .prepare : System W S).activated = true → P := by
    intro P active
    rw [show (s.at_ .prepare).activated = s.activated from rfl, inactive] at active
    cases active
  exact {
    outside := inv.outside
    excluded := fun holds => Bool.noConfusion holds
    progress := inv.progress
    quiet := inv.quiet
    stamps := inv.stamps
    unclaimed := fun queued => nomatch queued
    writes := fun live => idle live.2.1
    covered := fun live => idle live.2.1
    charged := fun live => idle live.2.1
    hand := fun _ => trivial
    decided := trivial
    safe := inv.safe }

-- Nobody is inside the fence when the double writes begin, so nobody goes on without the shadow.
theorem activate_inv (inv : Inv s) (at_ : s.runner = .activating) :
    Inv { s.at_ .activated with job := patchPhase .dualWrite s.job, activated := true } := by
  have alone : s.sharers = [] := inv.excluded (by rw [at_]; rfl)
  have outside : ∀ w, s.fence w = {} := by
    intro w
    refine inv.outside w ?_
    rw [alone]
    exact List.not_mem_nil
  exact {
    outside := inv.outside
    excluded := fun holds => Bool.noConfusion holds
    progress := fun unmoved => ⟨(inv.progress unmoved).1, fun _ => List.mem_cons_self⟩
    quiet := fun inactive => Bool.noConfusion inactive
    stamps := inv.stamps
    unclaimed := fun queued => nomatch queued
    writes := by
      intro live w
      have ok : (s.fence w).Ok (patchPhase .dualWrite s.job) := by
        rw [outside w]
        exact .unread _ (.inl rfl)
      exact ok
    covered := by
      rintro ⟨unmoved, -, running⟩ operation inside
      cases active : s.activated with
      | false =>
        have owed : operation ∈ s.owed := inside
        rw [(inv.quiet active).1] at owed
        cases owed
      | true => exact inv.covered ⟨unmoved, active, running⟩ operation inside
    charged := by
      rintro ⟨unmoved, -, running⟩ failure inside
      cases active : s.activated with
      | false =>
        have raised : failure ∈ s.raised := inside
        rw [(inv.quiet active).2] at raised
        cases raised
      | true => exact inv.charged ⟨unmoved, active, running⟩ failure inside
    hand := fun _ => trivial
    decided := trivial
    safe := inv.safe }

variable {since attempt : Nat} {row : LinkPendingRow S}

/-! ### Deriving again -/

theorem mem_afterDerivation {source : S} {owed : List (Operation S)} {operation : Operation S} :
    operation ∈ afterDerivation source since owed ↔
      operation ∈ owed ∧ ¬ (operation.source = source ∧ operation.stamp < since) := by
  simp [afterDerivation, ← imp_iff_not_or]

/-- The runner settles what is owed, or changes the rows that no owed operation needs. -/
theorem Inv.settle (inv : Inv s) (owed : List (Operation S)) (linkPending : LinkPendingTable S)
    (settled : owed ⊆ s.owed)
    (rows : s.Live → ∀ operation ∈ owed, ¬ Unrecorded s.fence operation →
      operation.source ∈ s.linkPending → operation.source ∈ linkPending)
    (free : runner.holdsFence = false) (claimed : runner ≠ .queued)
    (hand : s.Live → runner.Hand linkPending owed s.fence) :
    Inv { s.at_ runner with owed, linkPending } where
  outside := inv.outside
  excluded := by
    intro holds
    rw [show (_ : System W S).runner = runner from rfl, free] at holds
    cases holds
  progress := inv.progress
  quiet := by
    intro inactive
    obtain ⟨none_, raised⟩ := inv.quiet inactive
    exact ⟨List.subset_nil.mp (none_ ▸ settled), raised⟩
  stamps := fun operation inside => inv.stamps operation (settled inside)
  unclaimed := fun queued => absurd queued claimed
  writes := inv.writes
  covered := by
    intro live operation inside
    rcases inv.covered live operation (settled inside) with unrecorded | ⟨links, pending⟩
    · exact .inl unrecorded
    · by_cases unrecorded : Unrecorded s.fence operation
      · exact .inl unrecorded
      · exact .inr ⟨links, rows live operation inside unrecorded pending⟩
  charged := inv.charged
  hand := hand
  decided := RunnerAt.decided_of_free free _
  safe := by
    intro moved
    obtain ⟨none_, raised⟩ := inv.safe moved
    exact ⟨List.subset_nil.mp (none_ ▸ settled), raised⟩

theorem afterDerivation_subset (source : S) (since : Nat) (owed : List (Operation S)) :
    afterDerivation source since owed ⊆ owed :=
  fun _ inside => (mem_afterDerivation.mp inside).1

/-- The derivation of a row that was read is stored. -/
theorem derived_inv (inv : Inv s) (at_ : s.runner = .recover recovery)
    (stage : recovery.stage = .deriving_ row since) :
    Inv { s.at_ (.recover { recovery with stage := .derived row }) with
      owed := afterDerivation row.source since s.owed } := by
  refine inv.settle _ s.linkPending (afterDerivation_subset _ _ _)
    (fun _ _ _ _ pending => pending) rfl (by simp) fun live => ?_
  have hand := inv.hand live
  rw [at_] at hand
  obtain ⟨nodup, present, held⟩ := hand
  rw [stage] at held
  obtain ⟨there, apart, before⟩ := held
  refine ⟨nodup, present, there, apart, ?_⟩
  intro unchanged operation inside own
  obtain ⟨old, late⟩ := mem_afterDerivation.mp inside
  rcases before unchanged operation old own with early | unrecorded
  · exact absurd ⟨own, early⟩ late
  · exact unrecorded

/-- The row that has been derived is removed, unless it was recorded again. -/
theorem delete_inv (inv : Inv s) (at_ : s.runner = .recover recovery)
    (stage : recovery.stage = .derived row) :
    Inv { s.at_ (.recover { recovery with stage := .page }) with
      linkPending := deleteLinkPending row s.linkPending } := by
  have held : s.Live → recovery.Hand s.linkPending s.owed s.fence := by
    intro live
    have hand := inv.hand live
    rw [at_] at hand
    exact hand
  refine inv.settle s.owed _ (List.Subset.refl _) ?_ rfl (by simp) fun live => ?_
  · intro live operation inside unrecorded pending
    have derived := (held live).stage
    rw [stage] at derived
    rcases lookup_deleteLinkPending row s.linkPending operation.source with same | ⟨own, unchanged⟩
    · rw [← AList.lookup_isSome] at pending ⊢
      rw [same]
      exact pending
    · rw [own] at unchanged
      exact absurd (derived.2.2 unchanged operation inside own) unrecorded
  · obtain ⟨nodup, present, derived⟩ := held live
    rw [stage] at derived
    refine ⟨nodup, ?_, trivial⟩
    intro other inside
    obtain ⟨entry, found, behind⟩ := present other inside
    rcases lookup_deleteLinkPending row s.linkPending other.source with same | ⟨own, -⟩
    · exact ⟨entry, same.trans found, behind⟩
    · exact absurd (own ▸ List.mem_map_of_mem inside) derived.2.1

/-- A row is taken from the page. All that is owed to its source so far has come before. -/
theorem take_inv (inv : Inv s) (at_ : s.runner = .recover recovery) {rest : List (LinkPendingRow S)}
    (page : recovery.page = row :: rest) :
    Inv (s.at_ (.recover { recovery with
      stage := .deriving_ row s.clock, page := rest, seen := recovery.seen + 1 })) := by
  refine inv.at_ (fun holds => Bool.noConfusion holds) (by simp) (fun live => ?_) trivial
  have hand := inv.hand live
  rw [at_] at hand
  obtain ⟨nodup, present, -⟩ := hand
  rw [page] at nodup present
  rw [List.map_cons, List.nodup_cons] at nodup
  refine ⟨nodup.2, fun other inside => present other (List.mem_cons_of_mem _ inside), ?_⟩
  refine ⟨present row List.mem_cons_self, nodup.1, ?_⟩
  intro _ operation inside _
  exact .inl (inv.stamps operation inside)

/-- A page is read. -/
theorem list_inv (inv : Inv s) {after : Option S} {limit : Nat}
    (page : recovery.page = listLinkPending le s.linkPending limit after)
    (stage : recovery.stage = .page) : Inv (s.at_ (.recover recovery)) := by
  refine inv.at_ (fun holds => Bool.noConfusion holds) (by simp) (fun live => ?_) trivial
  refine ⟨?_, ?_, ?_⟩
  · rw [page]
    exact nodup_listLinkPending le s.linkPending limit after
  · intro row inside
    rw [page] at inside
    obtain ⟨entry, found, same⟩ := lookup_of_mem_listLinkPending inside
    exact ⟨entry, found, Nat.le_of_eq same.symm⟩
  · rw [stage]
    trivial

/-- Between two rows the runner holds the rest of its page. -/
theorem Inv.rest (inv : Inv s) {next : Recovery S} (at_ : s.runner = .recover recovery)
    (page : next.page = recovery.page)
    (stage : ∀ rows owed, next.stage.Hand rows owed s.fence next.page) :
    Inv (s.at_ (.recover next)) := by
  refine inv.at_ (fun holds => Bool.noConfusion holds) (by simp) (fun live => ?_) trivial
  have hand := inv.hand live
  rw [at_] at hand
  exact ⟨page ▸ hand.nodup, page ▸ hand.present, stage _ _⟩

-- A round begins with no page.
theorem Inv.begin_ (inv : Inv s) (page : recovery.page = []) (stage : recovery.stage = .listing) :
    Inv (s.at_ (.recover recovery)) := by
  refine inv.at_ (fun holds => Bool.noConfusion holds) (by simp) (fun live => ?_) trivial
  refine ⟨by rw [page]; exact List.nodup_nil, ?_, by rw [stage]; trivial⟩
  rw [page]
  exact List.forall_mem_nil _

theorem recoverProceed_inv (inv : Inv s) (at_ : s.runner = .recover recovery)
    (step : s.recoverProceed le recovery = some next) : Inv next := by
  unfold System.recoverProceed at step
  cases stage : recovery.stage with
  | listing =>
    simp only [stage] at step
    cases listed : listLinkPending le s.linkPending linkRecoveryPage recovery.after with
    | nil =>
      simp only [listed] at step
      cases step
      exact inv.rest at_ rfl fun _ _ => trivial
    | cons first rest =>
      simp only [listed] at step
      cases step
      exact list_inv inv listed.symm rfl
  | page =>
    simp only [stage] at step
    cases page : recovery.page with
    | nil =>
      simp only [page] at step
      cases step
      refine inv.rest at_ page.symm fun _ _ => ?_
      cases recovery.more <;> trivial
    | cons row rest =>
      simp only [page] at step
      cases step
      exact take_inv inv at_ page
  | deriving_ row since => simp [stage] at step
  | derived row =>
    simp only [stage] at step
    cases step
    exact delete_inv inv at_ stage
  | roundEnd =>
    simp only [stage] at step
    split at step
    next =>
      cases step
      split
      · exact inv.plain rfl
      · exact inv.plain rfl
    next =>
      split at step
      next =>
        cases step
        exact inv.begin_ rfl rfl
      next =>
        cases step
        exact inv.plain rfl

/-! ### Deciding -/

-- Inside the exclusive fence nobody has anything to record.
theorem Inv.accounted (inv : Inv s) (holds : s.runner.holdsFence = true)
    (running : s.job.state = .running) :
    s.raised = [] ∧
      ∀ operation ∈ s.owed, s.job.target = linksAlias ∧ operation.source ∈ s.linkPending := by
  have outside : ∀ w, s.fence w = {} := by
    intro w
    refine inv.outside w ?_
    rw [inv.excluded holds]
    exact List.not_mem_nil
  have nothing : s.owed = [] ∧ s.raised = [] → s.raised = [] ∧
      ∀ operation ∈ s.owed, s.job.target = linksAlias ∧ operation.source ∈ s.linkPending := by
    rintro ⟨owed, raised⟩
    rw [owed]
    exact ⟨raised, List.forall_mem_nil _⟩
  cases moved : s.moved with
  | true => exact nothing (inv.safe moved)
  | false =>
    cases active : s.activated with
    | false => exact nothing (inv.quiet active)
    | true =>
      have live : s.Live := ⟨moved, active, running⟩
      constructor
      · rw [List.eq_nil_iff_forall_not_mem]
        intro failure inside
        obtain ⟨w, buffered⟩ := inv.charged live failure inside
        rw [outside w] at buffered
        cases buffered
      · intro operation inside
        rcases inv.covered live operation inside with ⟨w, one, member, -⟩ | pending
        · rw [outside w] at member
          cases member
        · exact pending

theorem check_inv (inv : Inv s) (at_ : s.runner = .checking attempt)
    (step : s.runnerProceed le = some next) : Inv next := by
  simp only [System.runnerProceed, at_] at step
  have holds : s.runner.holdsFence = true := by rw [at_]; rfl
  have alone := inv.excluded holds
  split at step
  next =>
    cases step
    exact inv.plain rfl
  next passed =>
    have running : s.job.state = .running := by
      by_contra stopped
      exact passed (.inl stopped)
    obtain ⟨raised, accounted⟩ := inv.accounted holds running
    split at step
    next links =>
      cases step
      refine inv.at_ (fun _ => alone) (by simp) (fun _ => trivial) ?_
      exact ⟨links, raised, fun operation inside => (accounted operation inside).2⟩
    next other =>
      cases step
      refine inv.at_ (fun _ => alone) (by simp) (fun _ => trivial) ⟨raised, ?_⟩
      rw [List.eq_nil_iff_forall_not_mem]
      exact fun operation inside => other (accounted operation inside).1

theorem count_inv (inv : Inv s) (at_ : s.runner = .counting attempt)
    (step : s.runnerProceed le = some next) : Inv next := by
  simp only [System.runnerProceed, at_] at step
  have alone := inv.excluded (by rw [at_]; rfl)
  have decided := inv.decided
  rw [at_] at decided
  obtain ⟨-, raised, pending⟩ := decided
  split at step
  next =>
    cases step
    exact inv.plain rfl
  next empty =>
    cases step
    refine inv.at_ (fun _ => alone) (by simp) (fun _ => trivial) ⟨raised, ?_⟩
    rw [List.eq_nil_iff_forall_not_mem]
    intro operation inside
    have zero : countLinkPending s.linkPending = 0 := by omega
    have none_ := lookup_of_countLinkPending_eq_zero zero operation.source
    exact AList.lookup_eq_none.mp none_ (pending operation inside)

/-- The alias moves when everything that the target lacked has been accounted for. -/
theorem switch_inv (inv : Inv s) (at_ : s.runner = .switching)
    (next : (∃ tries, runner = .recordingSwitch tries) ∨ runner.Plain) :
    Inv { s.at_ runner with moved := true } := by
  have alone := inv.excluded (by rw [at_]; rfl)
  have decided := inv.decided
  rw [at_] at decided
  have moved : ∀ {P : Prop}, (true : Bool) = false → P := fun clash => Bool.noConfusion clash
  exact {
    outside := inv.outside
    excluded := fun _ => alone
    progress := fun unmoved => moved unmoved
    quiet := inv.quiet
    stamps := inv.stamps
    unclaimed := by
      intro queued
      rcases next with ⟨tries, rfl⟩ | plain
      · cases queued
      · rw [show runner = .queued from queued] at plain
        exact plain.elim
    writes := fun live => moved live.1
    covered := fun live => moved live.1
    charged := fun live => moved live.1
    hand := fun live => moved live.1
    decided := by
      rcases next with ⟨tries, rfl⟩ | plain
      · rfl
      · have free : runner.holdsFence = false := by
          cases runner <;> first | exact plain | cases plain
        exact RunnerAt.decided_of_free free _
    safe := fun _ => ⟨decided.2, decided.1⟩ }

/-- The job is ended, if it is still running. -/
theorem finish_inv (inv : Inv s) (ending : JobEnd) (error : Option String) :
    Inv { s.at_ .clear with job := (s.job.finishJobIfRunning ending error).getD s.job } := by
  cases finished : s.job.finishJobIfRunning ending error with
  | none => exact inv.plain rfl
  | some job =>
    obtain ⟨-, rfl⟩ := finishJobIfRunning_eq_some finished
    have stopped := inv.stop { s.job with state := ending.state, error := error } rfl rfl rfl
      ending.state_ne_running
    exact stopped.plain rfl

/-! ### All of them -/

theorem runnerProceed_inv (inv : Inv s) (step : s.runnerProceed le = some next) : Inv next := by
  have whole := step
  cases at_ : s.runner <;> simp only [System.runnerProceed, at_] at step
  case queued =>
    obtain ⟨job, claimed, rfl⟩ := Option.map_eq_some_iff.mp step
    exact claim_inv inv at_ claimed
  case prepare =>
    cases step
    exact inv.plain rfl
  case activate =>
    split at step
    next alone =>
      cases step
      exact inv.at_ (fun _ => List.isEmpty_iff.mp alone) (by simp) (fun _ => trivial) trivial
    next => cases step
  case activating =>
    cases step
    exact activate_inv inv at_
  case activated =>
    cases step
    exact (inv.patch .backfill (by decide)).plain rfl
  case rebuild task incomplete =>
    cases task with
    | some task => simp [System.runnerProceed, at_] at step
    | none =>
      cases incomplete with
      | cons source rest => simp [System.runnerProceed, at_] at step
      | nil =>
        simp only [System.runnerProceed, at_] at step
        cases step
        split
        · exact inv.begin_ rfl rfl
        · exact inv.plain rfl
  case recover recovery =>
    exact recoverProceed_inv inv at_ step
  case scanned =>
    cases step
    exact inv.plain rfl
  case verify attempt =>
    cases step
    exact (inv.patch .verify (by decide)).plain rfl
  case verifying attempt =>
    cases step
    exact inv.plain rfl
  case cutover attempt =>
    cases step
    exact (inv.patch .cutover (by decide)).plain rfl
  case waiting attempt =>
    split at step
    next alone =>
      cases step
      exact inv.at_ (fun _ => List.isEmpty_iff.mp alone) (by simp) (fun _ => trivial) trivial
    next => cases step
  case checking attempt => exact check_inv inv at_ whole
  case counting attempt => exact count_inv inv at_ whole
  case guarding attempt =>
    cases step
    have alone := inv.excluded (by rw [at_]; rfl)
    have decided := inv.decided
    rw [at_] at decided
    exact inv.at_ (fun _ => alone) (by simp) (fun _ => trivial) decided
  case switching =>
    cases step
    exact switch_inv inv at_ (.inl ⟨1, rfl⟩)
  case recordingSwitch tries => simp [System.runnerProceed, at_] at step
  case aborted attempt pendingAtCutover reason =>
    split at step
    next =>
      cases step
      exact inv.begin_ rfl rfl
    next =>
      cases step
      exact inv.plain rfl
  case conclude ending error =>
    cases step
    exact finish_inv inv ending error
  case fail detail =>
    cases step
    exact finish_inv inv .failed (some detail)
  case clear =>
    cases step
    -- the queue of a job that has ended is cleared
    refine inv.settle s.owed _ (List.Subset.refl _) ?_ rfl (by simp) (fun _ => trivial)
    intro live operation _ _ pending
    have active : s.job.state.active = true := by rw [live.2.2]; rfl
    simpa [active] using pending
  case «over» => simp [System.runnerProceed, at_] at step

theorem onFault_inv (inv : Inv s) {detail : String} (fault : s.runner.onFault detail = some runner) :
    Inv (s.at_ runner) := by
  cases at_ : s.runner with
  | queued => simp [RunnerAt.onFault, at_] at fault
  | «over» => simp [RunnerAt.onFault, at_] at fault
  | recordingSwitch tries =>
    simp only [RunnerAt.onFault, at_] at fault
    have alone := inv.excluded (by rw [at_]; rfl)
    have decided := inv.decided
    rw [at_] at decided
    split at fault
    next =>
      cases fault
      exact inv.at_ (fun _ => alone) (by simp) (fun _ => trivial) decided
    next =>
      cases fault
      exact inv.plain rfl
  | _ =>
    simp only [RunnerAt.onFault, at_] at fault
    cases fault
    exact inv.plain rfl

theorem runnerStep_inv {move : RunnerMove S} (inv : Inv s) (step : s.runnerStep le move = some next) :
    Inv next := by
  cases move <;> simp only [System.runnerStep] at step
  case proceed => exact runnerProceed_inv inv step
  case fault detail =>
    obtain ⟨runner, fault, rfl⟩ := Option.map_eq_some_iff.mp step
    exact onFault_inv inv fault
  case rederive source =>
    split at step
    next =>
      cases step
      exact inv.plain rfl
    next => cases step
  case derived outcome =>
    split at step
    next =>
      split at step
      next =>
        split at step
        next =>
          cases step
          exact inv.plain rfl
        next => cases step
      next =>
        cases step
        exact inv.settle _ s.linkPending (afterDerivation_subset _ _ _)
          (fun _ _ _ _ pending => pending) rfl (by simp) (fun _ => trivial)
    next recovery at_ =>
      split at step
      next row since stage =>
        split at step
        next =>
          cases step
          exact inv.rest at_ rfl fun _ _ => trivial
        next =>
          cases step
          exact derived_inv inv at_ stage
      next => cases step
    next => cases step
  case recordIncomplete =>
    split at step
    next =>
      obtain ⟨linkPending, recorded, rfl⟩ := Option.map_eq_some_iff.mp step
      refine inv.settle s.owed _ (List.Subset.refl _) ?_ rfl (by simp) (fun _ => trivial)
      exact fun _ operation _ _ pending =>
        mem_of_recorded (recorded_of_recordLinkPending recorded) pending
    next => cases step
  case refuse reason =>
    split at step
    next =>
      cases step
      exact inv.plain rfl
    next =>
      cases step
      exact inv.plain rfl
    next => cases step
  case switched when_ =>
    split at step
    next at_ =>
      cases step
      have moved := inv.decided
      rw [at_] at moved
      have gone : ∀ {P : Prop}, s.moved = false → P := by
        intro P unmoved
        rw [show s.moved = true from moved] at unmoved
        cases unmoved
      exact {
        outside := inv.outside
        excluded := fun holds => Bool.noConfusion holds
        progress := fun unmoved => gone unmoved
        quiet := inv.quiet
        stamps := inv.stamps
        unclaimed := fun queued => nomatch queued
        writes := fun live => gone live.1
        covered := fun live => gone live.1
        charged := fun live => gone live.1
        hand := fun live => gone live.1
        decided := trivial
        safe := inv.safe }
    next => cases step
  case lateFault detail =>
    split at step
    next at_ =>
      cases step
      exact switch_inv inv at_ (.inr rfl)
    next => cases step

end PrSearch.Reindex
