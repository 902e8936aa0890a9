import PrSearch.Reindex.RunnerSteps

/-! # No write is lost

When the alias moves, the target has had every operation that the serving index has had since the
activation, or their sources were derived again; a failure of the shadow keeps the alias where it is.
This holds of the runs in which no write leaves the fence with something it has not recorded. The
buffers are written to the job only when the callback returns: a callback that throws takes them with
it, and the cutover that follows finds nothing.
-/
namespace PrSearch.Reindex

open Jobs

variable {W S : Type*} [DecidableEq W] [DecidableEq S]

structure NoWriteLost (s : System W S) : Prop where
  writes : s.moved = true → s.owed = []
  failures : s.moved = true → s.raised = []
  recorded : s.sharers = [] → s.raised ≠ [] → s.job.state ≠ .running

variable {s next : System W S} {le : S → S → Bool}

/-- The operator pauses, resumes or cancels the job. -/
theorem operator_inv {action : JobAction} (inv : Inv s)
    (step : s.step le (.operator action) = some next) : Inv next := by
  obtain ⟨job, transition, rfl⟩ := Option.map_eq_some_iff.mp step
  obtain ⟨-, rfl⟩ := transitionJob_eq_some transition
  exact inv.stop _ rfl rfl rfl (nextState_ne_running action)

theorem step_inv {action : Action W S} (inv : Inv s) (settles : s.Settles action)
    (step : s.step le action = some next) : Inv next := by
  cases action with
  | operator action => exact operator_inv inv step
  | fence w move => exact fenceStep_inv inv settles step
  | runner move => exact runnerStep_inv inv step

theorem Inv.noWriteLost (inv : Inv s) :
    NoWriteLost s where
  writes := fun moved => (inv.safe moved).1
  failures := fun moved => (inv.safe moved).2
  recorded := by
    intro alone some_ running
    obtain ⟨failure, inside⟩ := List.exists_mem_of_ne_nil s.raised some_
    cases moved : s.moved with
    | true => exact some_ (inv.safe moved).2
    | false =>
      cases active : s.activated with
      | false => exact some_ (inv.quiet active).2
      | true =>
        -- the failure is in the buffer of a writer, but there is none
        obtain ⟨w, buffered⟩ := inv.charged ⟨moved, active, running⟩ failure inside
        rw [inv.outside w (by rw [alone]; exact List.not_mem_nil)] at buffered
        cases buffered

/-- The runs in which every write settles what it leaves behind lose no write. -/
theorem reindex_loses_no_write (le : S → S → Bool) (job : ReindexJob)
    (linkPending : LinkPendingTable S) (actions : List (Action W S))
    (settles : ∀ turn ∈ (automaton le).taken actions (System.start job linkPending),
      turn.1.Settles turn.2) :
    ∀ s ∈ (automaton le).visited actions (System.start job linkPending), NoWriteLost s := by
  have step : ∀ (s : System W S) action next, Inv s → s.Settles action →
      (automaton le).step s action = some next → Inv next :=
    fun _ _ _ inv settles step => step_inv inv settles step
  intro s reached
  exact (Automaton.visited_of_taken step (start_inv job linkPending) settles s reached).noWriteLost

/-! ### A run of each kind -/

/-- A reindex of the releases, as it is queued. -/
def releasesJob : ReindexJob where
  target := "prs-releases"
  state := .queued
  progress := { phase := .prepare, sourceIndex := "prs-releases-v1", targetIndex := "prs-releases-v2" }

def proceedTimes (n : Nat) : List (Action Unit Unit) := List.replicate n (.runner .proceed)

/-- One write while the sources are derived again, and then the cutover. -/
def runWith (mirror : Mirror) (exit : FenceMove Unit) : List (Action Unit Unit) :=
  proceedTimes 6 ++
    [.fence () .lock, .fence () .proceed, .fence () (.write ⟨(), true, mirror⟩), .fence () exit] ++
    proceedTimes 8

instance decidableSettles (s : System W S) : (action : Action W S) → Decidable (s.Settles action)
  | .fence w .throw | .fence w .fault =>
      inferInstanceAs (Decidable (s.job.state = .running →
        (s.fence w).failures = [] ∧ (s.fence w).unmirrored = []))
  | .fence w .return_ =>
      inferInstanceAs (Decidable (s.job.state = .running →
        ∀ one ∈ (s.fence w).unmirrored, one.cause ≠ .unsent))
  | .fence _ .lock | .fence _ (.write _) | .fence _ .proceed => .isTrue trivial
  | .operator _ | .runner _ => .isTrue trivial

/-- The alias moves after a write that both indices have had. -/
theorem reindex_loses_no_write_mirrored :
    ((automaton fun _ _ => true).visited (runWith .written .return_)
      (System.start releasesJob ∅)).any (·.moved) = true ∧
    ∀ s ∈ (automaton fun _ _ => true).visited (runWith .written .return_)
      (System.start releasesJob ∅), NoWriteLost s :=
  ⟨by decide, reindex_loses_no_write _ releasesJob ∅ _ (by decide)⟩

/-- The shadow refuses an operation, the callback throws, and the alias moves all the same. -/
theorem thrown_write_is_lost :
    ¬ ∀ s ∈ (automaton fun _ _ => true).visited
      (runWith (.failed "bulk" "mapper_parsing_exception") .throw) (System.start releasesJob ∅),
      NoWriteLost s := by
  intro kept
  have lost : ((automaton fun _ _ => true).visited
      (runWith (.failed "bulk" "mapper_parsing_exception") .throw)
      (System.start releasesJob ∅)).any (fun s => s.moved && !s.owed.isEmpty) = true := by
    decide
  obtain ⟨s, reached, gone⟩ := List.any_eq_true.mp lost
  simp only [Bool.and_eq_true, Bool.not_eq_true'] at gone
  rw [(kept s reached).writes gone.1] at gone
  cases gone.2

end PrSearch.Reindex
