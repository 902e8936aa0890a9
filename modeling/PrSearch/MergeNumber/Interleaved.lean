import Mathlib.Data.Fin.VecNotation
import PrSearch.MergeNumber.Behaviour
import PrSearch.Sequence.Interleaved

/-! # Any number of rounds, and epochs that are raised under them

The pool runs numbering rounds beside the three programs that assign, reassign and repair the
sequence, in any order of calls and with any answers and failures. Every committed transaction keeps
the tables counted, so the checkpoint's invariant holds in every state of every run.
-/
namespace PrSearch.MergeNumber

open Sequence Program

/-- What a worker of the space runs: a numbering round, or one of the sequence programs. -/
inductive SpaceJob
  | sequence (job : Job)
  | reconcile (options : RoundOptions)
  deriving DecidableEq, Repr

inductive SpaceEnded
  | sequence (ended : Ended)
  | reconcile (outcome : ReconcileOutcome)
  deriving DecidableEq, Repr

def SpaceJob.program : SpaceJob → Program SpaceEnded
  | .sequence job => do
      let ended ← job.program
      pure (.sequence ended)
  | .reconcile options => do
      let outcome ← reconcileMergeNumbers options
      pure (.reconcile outcome)

variable {done : Reassigned}

/-! ### Transactions of the sequence programs -/

section

variable {db db' : Store} {ws : List Write}

theorem appended_counts {newHead : Sha} {fromSeq toSeq : Int}
    (appended : Appended counting newHead fromSeq toSeq ws db db') : Counts db db' := by
  obtain ⟨commits, entries, requests, -, fills, rfl, -⟩ := appended.shape
  exact counts_of_append fills.consecutive rfl appended.replayed

theorem rewound_counts {stored new : Sha} (rewound : Rewound counting stored new done ws db db') :
    Counts db db' := by
  have evolves := rewound.evolves
  obtain ⟨base, commits, entries, requests, -, -, fills, rfl, -⟩ := rewound.shape
  exact counts_of_rebuild fills.consecutive rfl evolves rewound.replayed

theorem rebuilt_counts {plan : RepairPlan} {seen : Store}
    (rebuilt : Rebuilt counting plan done ws seen db db') : Counts db db' := by
  have evolves := rebuilt.evolves fun {_ _} (since : Counts _ _) => since.evolves.binds _ _ _
  obtain ⟨commits, entries, requests, -, fills, rfl, -⟩ := rebuilt.shape
  exact counts_of_rebuild fills.consecutive rfl evolves rebuilt.replayed

end

section

variable {W : Type} [DecidableEq W]

abbrev SpaceWorkers (W : Type) := Config Op Fault W SpaceEnded (World W)

/-- Nothing has been numbered, and every worker is about to start. -/
def startSpace (jobs : W → SpaceJob) : SpaceWorkers W where
  shared := World.initial Store.empty
  pool w := (jobs w).program

/-! ### The discipline of the pool -/

def countingTogether (W : Type) [DecidableEq W] : Machine.Discipline W (World W) :=
  discipline counting Counts id

theorem counted_empty : Counted Store.empty := by
  refine ⟨sound_empty, [], ?_⟩
  constructor
  · rfl
  · rfl
  · intro row member
    cases member
  · intro row member
    cases member
  · intro i entry here
    cases here

theorem sequenceJob_does (w : W) (job : Job) (d₀ : Store) :
    Does counting Counts w (Idle counting w [] d₀) job.program (fun _ _ => True)
      fun _ => True := by
  cases job with
  | assign baseBranch =>
    apply Does.bind ((assignSequence_does baseBranch (fun _ _ _ _ _ _ => appended_counts)
      fun _ _ _ _ _ _ => rewound_counts).weaken (fun _ => id) (fun _ _ => id) fun _ _ => trivial)
    intro outcome
    exact Does.pure fun _ _ => trivial
  | reassign storedHead newHead =>
    apply Does.bind ((reassignSequence_does fun _ _ _ _ => rewound_counts).weaken (fun _ => id)
      (fun _ _ => id) fun _ _ => trivial)
    intro outcome
    exact Does.pure fun _ _ => trivial
  | repair =>
    apply Does.bind ((repairSequence_does fun _ _ _ _ _ _ => rebuilt_counts).weaken (fun _ => id)
      (fun _ _ => id) fun _ _ => trivial)
    intro outcome
    exact Does.pure fun _ _ => trivial

/-- Every worker moves the tables along `Counts` only. -/
theorem spaceJob_does (w : W) (job : SpaceJob) :
    Does counting Counts w (Idle counting w [] Store.empty) job.program (fun _ _ => True)
      fun _ => True := by
  cases job with
  | sequence job =>
    apply Does.bind (sequenceJob_does w job Store.empty)
    intro ended
    exact Does.pure fun _ _ => trivial
  | reconcile options =>
    apply Does.bind ((reconcileMergeNumbers_does (fun _ _ _ => Numbered.counts) options
      counted_empty).weaken (fun _ => id) (fun _ _ => id) fun _ _ => trivial)
    intro outcome
    exact Does.pure fun _ _ => trivial

theorem startSpace_disciplined (jobs : W → SpaceJob) :
    (machine W fun _ => True).Disciplined (countingTogether W) (fun _ _ _ => True)
      (startSpace jobs) := by
  intro w s env
  have idle : Idle counting w [] Store.empty (World.initial Store.empty) := by
    constructor
    · rfl
    · simp [World.initial]
    · rfl
    · exact counting.refl _
  have guarded := spaceJob_does w (jobs w) s (Idle.stable counting w _ _ _ s env idle)
  exact guarded.mono fun _ _ _ => trivial

/-! ### Runs of the pool -/

variable {jobs : W → SpaceJob} {c c' next : SpaceWorkers W} {w : W}

/-- One call of a worker moves the tables along `Counts`. -/
theorem SpaceReaches.step (reached : (machine W fun _ => True).Reaches (startSpace jobs) c)
    (step : (machine W fun _ => True).Step w c next) : Counts c.shared.db next.shared.db := by
  have disciplined := reached.disciplined (startSpace_disciplined jobs)
  obtain ⟨new, -, frozen | ⟨-, counts, -⟩⟩ := (step.disciplined disciplined).1.wal
  · exact Counts.of_frozen frozen
  · exact counts

theorem SpaceReaches.counts (reached : (machine W fun _ => True).Reaches (startSpace jobs) c)
    (later : (machine W fun _ => True).Reaches c c') : Counts c.shared.db c'.shared.db := by
  induction later with
  | refl => exact Counts.of_frozen (Frozen.refl _)
  | tail before last ih =>
    obtain ⟨w, step⟩ := last
    exact ih.trans (SpaceReaches.step (reached.trans before) step)

theorem SpaceReaches.counted (reached : (machine W fun _ => True).Reaches (startSpace jobs) c) :
    Counted c.shared.db :=
  (SpaceReaches.counts .refl reached).counted counted_empty

/-- In every reachable state the checkpoint's invariant holds; and from there to any later state a
numbered row stays as it is, and neither head falls while the epoch stays. -/
theorem merge_number_checkpoint
    (reached : (machine W fun _ => True).Reaches (startSpace jobs) c)
    (later : (machine W fun _ => True).Reaches c c') :
    CheckpointInvariant c.shared.db ∧
    (∀ row ∈ c.shared.db.rows, row.mergeNumber.isSome → row ∈ c'.shared.db.rows) ∧
    (c'.shared.db.core.seqEpoch = c.shared.db.core.seqEpoch →
      c.shared.db.core.mnumberHead ≤ c'.shared.db.core.mnumberHead ∧
        c.shared.db.core.mnumberHeadSeq ≤ c'.shared.db.core.mnumberHeadSeq) := by
  have counted := SpaceReaches.counted reached
  have counts := SpaceReaches.counts reached later
  exact ⟨counted.invariant, counts.written counted, counts.heads counted⟩

end

/-- The one commit of the branch merged a pull request. -/
def oneMerge : Choice :=
  { oneCommit with scanEvidence := fun _ => .ok (.confirmed 7 0) }

def numbering : SpaceWorkers (Fin 2) :=
  startSpace ![.sequence (.assign "main"), .reconcile ⟨"main", 100, false, 0⟩]

local instance twoTurns : NeZero 2 := inferInstance

/-- An assignment, and then a round. -/
def numberingTurns : List (Fin 2 × Choice) :=
  List.replicate 15 (0, oneMerge) ++ List.replicate 22 (1, oneMerge)

theorem merge_number_checkpoint_numbering :
    ∃ c, (machine (Fin 2) fun _ => True).Reaches numbering c ∧
      c.shared.db.core.mnumberHead = 1 ∧ CheckpointInvariant c.shared.db := by
  obtain ⟨c, reached, checked⟩ := (machine (Fin 2) fun _ => True).reaches_of_check
    (fun _ _ _ _ _ => trivial) numberingTurns numbering
    (fun c => decide (c.shared.db.core.mnumberHead = 1)) (by decide)
  obtain ⟨invariant, -⟩ := merge_number_checkpoint reached .refl
  exact ⟨c, reached, of_decide_eq_true checked, invariant⟩

end PrSearch.MergeNumber
