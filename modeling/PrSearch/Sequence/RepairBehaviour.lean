import PrSearch.Sequence.Behaviour

/-! # What a repair does to the tables

The counterpart of the previous module for `repairSequence`: its analysis reads the tables before
the lock, so what it plans is tied to the tables it commits only by what the lock re-checks.
-/
namespace PrSearch.Sequence

open Program

section

variable {W : Type} [DecidableEq W] {E : Setting} {T : Store → Store → Prop} {w : W} {d₀ d : Store}

/-- How a repair ends. -/
def RepairEnds (E : Setting) (w : W) (d₀ : Store) : RepairOutcome → World W → Prop
  | .consistent _ seqEpoch, s =>
      ∃ first seen head space actual intent, (Idle E w [.request intent] seen s ∧
        E.since d₀ first ∧ E.since first seen) ∧
        first.space = some space ∧ seqEpoch = space.seqEpoch ∧ E.Head (some head) ∧
        E.RevList none head actual ∧
        firstSequenceMismatch (seen.listStoredSequence space.seqEpoch 1) actual = none
  | .repaired oldEpoch newEpoch divergedAtSeq toSeq headSha affectedCount, s =>
      ∃ plan ws seen db db', (Idle E w (.markReassigning :: ws) db' s ∧ E.since d₀ seen) ∧
        Rebuilt E plan ⟨oldEpoch, newEpoch, divergedAtSeq, toSeq, headSha, affectedCount⟩ ws
          seen db db'
  | .noBranch, s => Idle E w [] d₀ s
  | .locked, s => Idle E w [] d₀ s
  | .skipped reason, s => Idle E w [] d₀ s ∨
      reason = "head_moved" ∧ ∃ first space, (E.since d₀ first ∧ first.space = some space) ∧
        Idle E w [.markReassigning, .restoreSequenceState space.state space.lastError] d₀ s
  | .stale reason, s => Idle E w [.markStale reason] d₀ s ∨
      Idle E w [.markReassigning, .markStale reason] d₀ s

/-- What a repair that throws has left: nothing but its mark, if that took effect. -/
def RepairThrows (E : Setting) (w : W) (d₀ : Store) (s : World W) : Prop :=
  Idle E w [] d₀ s ∨ Idle E w [.markReassigning] d₀ s

def RepairBodyEnds (E : Setting) (w : W) (d₀ : Store) (plan : RepairPlan) (seen : Store) :
    RepairOutcome ⊕ Reassigned → World W → Prop
  | .inl outcome, s => RepairEnds E w d₀ outcome s
  | .inr done, s => ∃ ws db db', (Idle E w (.markReassigning :: ws) db' s ∧ E.since d₀ seen) ∧
      Rebuilt E plan done ws seen db db'

/-- What a throwing repair has left before its handler has rolled back. -/
def RepairBodyThrows (E : Setting) (w : W) (d₀ : Store) (s : World W) : Prop :=
  Open E w [] d₀ s ∨ Open E w [.markReassigning] d₀ s

theorem markRepairStale_does {history : List Write} (reason : String) :
    Does E T w (Idle E w history d₀) (markRepairStale reason)
      (fun outcome s => Idle E w (history ++ [.markStale reason]) d₀ s ∧ outcome = .stale reason)
      (Idle E w history d₀) := by
  apply Does.bind (markStale_does reason)
  intro _
  exact Does.pure fun s holds => ⟨holds.1, rfl⟩

variable {X : World W → Prop}

theorem repair_marksStale (idle : ∀ s, Idle E w [] d₀ s → X s) (reason : String) :
    Does E T w (Idle E w [] d₀) (markRepairStale reason) (RepairEnds E w d₀) X := by
  refine (markRepairStale_does reason).weaken (fun _ => id) ?_ idle
  rintro _ s ⟨marked, rfl⟩
  exact Or.inl marked

/-- The same, once the repair has set its own mark. -/
theorem repair_marksStaleAgain (idle : ∀ s, Idle E w [.markReassigning] d₀ s → X s)
    (reason : String) :
    Does E T w (Idle E w [.markReassigning] d₀) (markRepairStale reason) (RepairEnds E w d₀) X := by
  refine (markRepairStale_does reason).weaken (fun _ => id) ?_ idle
  rintro _ s ⟨marked, rfl⟩
  exact Or.inr marked

/-- Take the mark back under the old state; nothing is done when there is no mark yet. -/
theorem restoreRepairState_does {plan : RepairPlan}
    (read : ∃ first, E.since d₀ first ∧ first.space = some plan.space)
    (idle : ∀ s, Idle E w [.markReassigning] d₀ s → X s) :
    Does E T w (Idle E w [.markReassigning] d₀) (restoreRepairState plan true "head_moved")
      (RepairEnds E w d₀) X := by
  obtain ⟨first, origin, found⟩ := read
  apply Does.bind (Q := fun _ => Idle E w
    [.markReassigning, .restoreSequenceState plan.space.state plan.space.lastError] d₀)
  · apply Does.when
    · intro _
      apply Does.discard
      exact (Does.markIdle _ rfl).weaken (fun _ => id) (fun _ _ => id) idle
    · intro unmarked
      exact absurd rfl unmarked
  · intro _
    exact Does.pure fun s marked => Or.inr ⟨rfl, first, plan.space, ⟨origin, found⟩, marked⟩

section

variable {plan : RepairPlan} {seen : Store}

theorem repairCommit_does {commits : List FirstParentCommit} {entries : List MergeSequenceInsert}
    {toSeq affectedCount : Int} (planned : Planned E plan seen) (origin : E.since d₀ seen)
    (read : ∃ first, E.since d₀ first ∧ first.space = some plan.space) (reached : E.since seen d)
    (moves : ∀ plan done ws seen db db', Rebuilt E plan done ws seen db db' → T db db')
    (epoch : d.core.seqEpoch = plan.space.seqEpoch) (stored : d.core.headSha = plan.space.headSha)
    (walked : E.Commits plan.walkFrom plan.head commits)
    (fills : Fills (d.core.seqEpoch + 1) (numberCommits (plan.divergedAtSeq - 1) commits) entries)
    (toSeq_eq : toSeq = plan.divergedAtSeq - 1 + entries.length) :
    Does E T w
      (Holding w [.markReassigning]
        (epochWrites d.core (plan.divergedAtSeq - 1) ++ entries.map .upsertMergeSequence) d)
      (repairCommit plan d.core.seqEpoch (d.core.seqEpoch + 1) toSeq affectedCount)
      (RepairBodyEnds E w d₀ plan seen) (RepairBodyThrows E w d₀) := by
  have current : E.since d₀ d := E.trans origin reached
  have open_of : ∀ ws s, Holding w [.markReassigning] ws d s → RepairBodyThrows E w d₀ s :=
    fun ws s holds => Or.inr (holds.opened current)
  have idle_of : ∀ s, Idle E w [.markReassigning] d₀ s → RepairBodyThrows E w d₀ s :=
    fun s idle => Or.inr idle.opened
  have rebuilt : ∀ requests db db', Frozen d db →
      replay (epochWrites d.core (plan.divergedAtSeq - 1) ++ entries.map .upsertMergeSequence ++
        headWrites plan.head toSeq requests) db = .ok db' →
      Rebuilt E plan
        ⟨d.core.seqEpoch, d.core.seqEpoch + 1, plan.divergedAtSeq, toSeq, plan.head, affectedCount⟩
        (epochWrites d.core (plan.divergedAtSeq - 1) ++ entries.map .upsertMergeSequence ++
          headWrites plan.head toSeq requests) seen db db' := by
    intro requests db db' frozen replayed
    refine ⟨planned, E.trans reached (E.frozen frozen), by rw [frozen.core, epoch],
      by rw [frozen.core, stored], ⟨commits, entries, requests, walked, ?_, ?_, toSeq_eq⟩,
      by rw [frozen.core]; exact ⟨rfl, rfl⟩, rfl, rfl, replayed⟩
    · rw [frozen.core]
      exact fills
    · rw [frozen.core, rebuildWrites_eq, toSeq_eq]
  apply readGraph_does current (fun c => c.resolveHead) (fun _ _ => rfl) (fun liveHead _ => ?_)
    (repair_marksStaleAgain idle_of) idle_of
  split
  · apply Does.andThen (Does.rollback.pre fun s holds => holds.opened current) idle_of
    intro _
    apply Does.bind (restoreRepairState_does read idle_of)
    intro outcome
    exact Does.pure fun _ => id
  · apply Does.bind (commitEpoch_does plan.head _ _ toSeq open_of
      (fun s idle => Or.inr ⟨idle.own, E.trans current idle.since⟩)
      fun requests db db' frozen replayed => moves _ _ _ _ _ _
        (rebuilt requests db db' frozen replayed))
    intro _
    apply Does.pure
    rintro s ⟨requests, db, db', ⟨idle, frozen⟩, replayed⟩
    exact ⟨_, db, db', ⟨idle, origin⟩, rebuilt requests db db' frozen replayed⟩

theorem repairRebuild_does (planned : Planned E plan seen) (origin : E.since d₀ seen)
    (read : ∃ first, E.since d₀ first ∧ first.space = some plan.space) (reached : E.since seen d)
    (moves : ∀ plan done ws seen db db', Rebuilt E plan done ws seen db db' → T db db')
    (epoch : d.core.seqEpoch = plan.space.seqEpoch)
    (stored : d.core.headSha = plan.space.headSha) :
    Does E T w (Holding w [] [] d) (repairRebuild plan d.core.seqEpoch)
      (RepairBodyEnds E w d₀ plan seen) (RepairBodyThrows E w d₀) := by
  have current : E.since d₀ d := E.trans origin reached
  have open_of : ∀ ws s, Holding w [.markReassigning] ws d s → RepairBodyThrows E w d₀ s :=
    fun ws s holds => Or.inr (holds.opened current)
  have idle_of : ∀ s, Idle E w [.markReassigning] d₀ s → RepairBodyThrows E w d₀ s :=
    fun s idle => Or.inr idle.opened
  have copies : 1 < plan.divergedAtSeq ↔ 0 < plan.divergedAtSeq - 1 := by omega
  apply Does.andThen (Does.markHolding .markReassigning rfl)
    (fun s holds => Or.inl (holds.opened current))
  intro _
  apply Does.andThen (Does.queryTx _) (open_of [])
  intro affectedCount
  apply (startEpoch_does (plan.divergedAtSeq - 1) copies open_of ?_).pre fun _ => And.left
  apply readGraph_does current (fun c => c.firstParentCommits plan.walkFrom plan.head)
    (fun _ _ => rfl) (fun commits walked => ?_) (repair_marksStaleAgain idle_of) idle_of
  -- The tail: the rows first, then the check of the live head and the commit.
  apply Does.bind (upsertNumbered_does _ _ open_of)
  intro _
  apply Does.exists
  intro entries
  apply Does.given
  intro fills
  exact repairCommit_does planned origin read reached moves epoch stored walked fills
    (by rw [fills.length_eq])

theorem repairLocked_does (planned : Planned E plan seen) (origin : E.since d₀ seen)
    (read : ∃ first, E.since d₀ first ∧ first.space = some plan.space) (reached : E.since seen d)
    (moves : ∀ plan done ws seen db db', Rebuilt E plan done ws seen db db' → T db db') :
    Does E T w (Holding w [] [] d) (repairLocked plan) (RepairBodyEnds E w d₀ plan seen)
      (RepairBodyThrows E w d₀) := by
  have current : E.since d₀ d := E.trans origin reached
  have open_of : ∀ s, Holding w [] [] d s → RepairBodyThrows E w d₀ s :=
    fun s holds => Or.inl (holds.opened current)
  have idle_of : ∀ s, Idle E w [] d₀ s → RepairBodyThrows E w d₀ s :=
    fun s idle => Or.inl idle.opened
  have gives_up : ∀ reason, Does E T w (Holding w [] [] d)
      (do
        .perform .rollback
        let outcome ← restoreRepairState plan false reason
        pure (.inl outcome))
      (RepairBodyEnds E w d₀ plan seen) (RepairBodyThrows E w d₀) := by
    intro reason
    apply Does.andThen (Does.rollback.pre fun s holds => holds.opened current) idle_of
    intro _
    exact Does.pure fun s idle => Or.inl idle
  apply Does.andThen (Does.queryTx Store.findSequenceSpace) open_of
  intro found
  apply Does.given
  rintro ⟨db, view, frozen, replayed, rfl⟩
  cases replay_nil replayed
  cases h : Store.findSequenceSpace db with
  | none => exact gives_up _
  | some space =>
    obtain ⟨epoch, head, -⟩ := SequenceSpace.core_of_space h
    rw [frozen.core] at epoch head
    dsimp only
    split
    · exact gives_up _
    next same_epoch =>
      split
      · exact gives_up _
      next same_head =>
        have planned_epoch : d.core.seqEpoch = plan.space.seqEpoch :=
          epoch.trans (not_not.mp same_epoch)
        have planned_head : d.core.headSha = plan.space.headSha :=
          head.trans (not_not.mp same_head)
        rw [← epoch]
        exact repairRebuild_does planned origin read reached moves planned_epoch planned_head

theorem repairBody_does (planned : Planned E plan seen) (origin : E.since d₀ seen)
    (read : ∃ first, E.since d₀ first ∧ first.space = some plan.space)
    (moves : ∀ plan done ws seen db db', Rebuilt E plan done ws seen db db' → T db db') :
    Does E T w (Idle E w [] seen) (repairBody plan) (RepairBodyEnds E w d₀ plan seen)
      (RepairBodyThrows E w d₀) := by
  have idle_of : ∀ s, Idle E w [] seen s → RepairBodyThrows E w d₀ s :=
    fun s idle => Or.inl (idle.rebase origin).opened
  apply Does.andThen (Does.begin (Idle.stable E w _ seen)) idle_of
  intro _
  apply Does.locking (fun d reached => repairLocked_does planned origin read reached moves) ?_
    idle_of
  apply Does.andThen (Does.rollback.pre fun s idle => idle.opened) idle_of
  intro _
  exact Does.pure fun s idle => idle.rebase origin

theorem announceRepaired_does (done : Reassigned) :
    Does E T w (RepairBodyEnds E w d₀ plan seen (.inr done)) (announceRepaired done)
      (RepairEnds E w d₀) X := by
  apply Does.exists
  intro ws
  apply Does.exists
  intro db
  apply Does.exists
  intro db'
  apply Does.given
  intro rebuilt
  have stable : Stable E w fun s => Idle E w (.markReassigning :: ws) db' s ∧ E.since d₀ seen :=
    (Idle.stable E w _ db').and_const _
  apply Does.bind (Does.external stable _)
  intro _
  apply Does.bind (Does.external stable _)
  intro _
  apply Does.bind (Does.external stable _)
  intro _
  exact Does.pure fun s here => ⟨plan, ws, seen, db, db', here, rebuilt⟩

theorem repairPlanned_does (planned : Planned E plan seen) (origin : E.since d₀ seen)
    (read : ∃ first, E.since d₀ first ∧ first.space = some plan.space)
    (moves : ∀ plan done ws seen db db', Rebuilt E plan done ws seen db db' → T db db') :
    Does E T w (Idle E w [] seen) (repairPlanned plan) (RepairEnds E w d₀)
      (RepairThrows E w d₀) := by
  apply Does.andThen (Does.connect (Idle.stable E w _ seen))
    (fun s idle => Or.inl (idle.rebase origin))
  intro _
  apply Does.bind (Does.tryCatch (repairBody_does planned origin read moves) fun fault => ?_)
  · intro ended
    cases ended with
    | inl outcome => exact Does.pure fun s here => here
    | inr done => exact announceRepaired_does done
  · -- The handler marks the space, whatever the transaction had come to.
    apply Does.either
    · apply Does.bind Does.quietRollback
      intro _
      apply Does.bind (repair_marksStale (fun s => Or.inl) _)
      intro outcome
      exact Does.pure fun _ => id
    · apply Does.bind Does.quietRollback
      intro _
      apply Does.bind (repair_marksStaleAgain (fun s => Or.inr) _)
      intro outcome
      exact Does.pure fun _ => id

end

/-- The comparison: consistent tables end the run, a mismatch becomes a plan. -/
theorem repairSpace_does {first : Store} {space : SequenceSpace} {head : Sha}
    (moves : ∀ plan done ws seen db db', Rebuilt E plan done ws seen db db' → T db db')
    (origin : E.since d₀ first) (found : first.space = some space) (resolved : E.Head (some head)) :
    Does E T w (Idle E w [] first) (repairSpace head space) (RepairEnds E w d₀)
      (RepairThrows E w d₀) := by
  have idle_of : ∀ s, Idle E w [] first s → RepairThrows E w d₀ s :=
    fun s idle => Or.inl (idle.rebase origin)
  apply Does.andThen (Does.queryPool (Store.listStoredSequence space.seqEpoch 1)) idle_of
  intro stored
  apply Does.exists
  intro seen
  apply Does.given
  rintro rfl
  apply Does.given
  intro later
  have current : E.since d₀ seen := E.trans origin later
  apply Does.bind (Does.attempts (Idle.stable E w _ seen) (.firstParentRevList none head)
    (fun c => c.firstParentRevList none head) fun _ _ => rfl)
  intro listed
  apply Does.given
  intro said
  cases listed with
  | error fault =>
    apply (repair_marksStale (fun s => Or.inl) _).pre
    intro s idle
    exact idle.rebase current
  | ok actual =>
    cases compared : firstSequenceMismatch (seen.listStoredSequence space.seqEpoch 1) actual with
    | none =>
      dsimp only
      rw [compared]
      apply Does.andThen (Does.markIdle (.request (.work .project space.seqEpoch ["full"])) rfl)
        (fun s idle => Or.inl (idle.rebase current))
      intro _
      exact Does.pure fun s idle =>
        ⟨first, seen, head, space, actual, _, ⟨idle, origin, later⟩, found, rfl, resolved, said,
          compared⟩
    | some mismatch =>
      dsimp only
      rw [compared]
      have planned : Planned E ⟨head, space, actual, mismatch.mergeSeq⟩ seen :=
        ⟨⟨first, found, later⟩, ⟨mismatch, compared, rfl⟩, said, resolved⟩
      exact repairPlanned_does planned current ⟨first, origin, found⟩ moves

/-- Every way a repair can go. -/
theorem repairSequence_does
    (moves : ∀ plan done ws seen db db', Rebuilt E plan done ws seen db db' → T db db') :
    Does E T w (Idle E w [] d₀) repairSequence (RepairEnds E w d₀) (RepairThrows E w d₀) := by
  have idle_of : ∀ s, Idle E w [] d₀ s → RepairThrows E w d₀ s := fun s => Or.inl
  apply Does.bind (Does.attempts (Idle.stable E w _ d₀) .resolveHead (fun c => c.resolveHead)
    fun _ _ => rfl)
  intro resolved
  apply Does.given
  intro said
  cases resolved with
  | error fault => exact repair_marksStale idle_of _
  | ok head =>
    cases head with
    | none => exact Does.pure fun s idle => idle
    | some head =>
      apply Does.andThen (Does.queryPool Store.findSequenceSpace) idle_of
      intro found
      apply Does.exists
      intro first
      apply Does.given
      rintro rfl
      apply Does.given
      intro origin
      cases found : Store.findSequenceSpace first with
      | none => exact Does.pure fun s idle => Or.inl (idle.rebase origin)
      | some space => exact repairSpace_does moves origin found said

end

end PrSearch.Sequence
