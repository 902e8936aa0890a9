import PrSearch.Sequence.Invariant

/-! # Any number of workers on one space

Every worker runs one of the three programs, and the workers' calls interleave in any order. The
graph may answer anything and any call may fail.
-/
namespace PrSearch.Sequence

/-- The run that a worker makes. -/
inductive Job
  | assign (baseBranch : String)
  | reassign (storedHead newHead : Sha)
  | repair
  deriving DecidableEq, Repr

inductive Ended
  | assign (outcome : AssignOutcome)
  | repair (outcome : RepairOutcome)
  deriving DecidableEq, Repr

def Job.program : Job → Program Ended
  | .assign baseBranch => do
      let outcome ← assignSequence baseBranch
      pure (.assign outcome)
  | .reassign storedHead newHead => do
      let outcome ← reassignSequence storedHead newHead
      pure (.assign outcome)
  | .repair => do
      let outcome ← repairSequence
      pure (.repair outcome)

variable {E : Setting} {d : Store}

variable {outcome : AssignOutcome}

section

variable {W : Type} [DecidableEq W]

abbrev Workers (W : Type) := Config Op Fault W Ended (World W)

/-- Nothing has been numbered, and every worker is about to start. -/
def start (jobs : W → Job) : Workers W where
  shared := World.initial Store.empty
  pool w := (jobs w).program

/-- The workers, whatever the outside answers. -/
def workers (W : Type) [DecidableEq W] : Machine Op Fault W Choice (World W) :=
  machine W fun _ => True

/-! ### The discipline of the workers -/

/-- Any answers, over tables that evolve. -/
def evolving : Setting where
  allow _ := True
  since := Evolves
  trans := Evolves.trans
  frozen := Evolves.of_frozen

/-- The transactions that the workers commit. -/
def Committed (db db' : Store) : Prop :=
  (∃ newHead fromSeq toSeq ws, Appended evolving newHead fromSeq toSeq ws db db') ∨
    (∃ stored new done ws, Rewound evolving stored new done ws db db') ∨
      ∃ plan done ws seen, Rebuilt evolving plan done ws seen db db'

theorem Committed.evolves {db db' : Store} (committed : Committed db db') : Evolves db db' := by
  rcases committed with ⟨_, _, _, _, appended⟩ | ⟨_, _, _, _, rewound⟩ | ⟨_, _, _, _, rebuilt⟩
  · exact appended.evolves
  · exact rewound.evolves
  · exact rebuilt.evolves fun since => Evolves.binds since _ _ _

def together (W : Type) [DecidableEq W] : Machine.Discipline W (World W) :=
  discipline evolving Committed Committed.evolves

/-- How the run of each job ends. -/
def JobEnds (jobs : W → Job) (w : W) (result : Except Fault Ended) (s : World W) : Prop :=
  match jobs w, result with
  | .assign _, .ok (.assign outcome) => AssignEnds evolving w Store.empty outcome s
  | .assign _, .error _ => AssignThrows evolving w Store.empty s
  | .reassign stored new, .ok (.assign outcome) =>
      ReassignEnds evolving w stored new Store.empty outcome s
  | .reassign _ _, .error _ => ReassignThrows evolving w Store.empty s
  | .repair, .ok (.repair outcome) => RepairEnds evolving w Store.empty outcome s
  | .repair, .error _ => RepairThrows evolving w Store.empty s
  | _, _ => False

theorem initial_idle_workers (w : W) :
    Idle evolving w [] Store.empty (World.initial Store.empty) := by
  constructor
  · rfl
  · simp [World.initial]
  · rfl
  · exact evolving.refl _

/-- At the start every worker keeps the discipline and will end as its job does. -/
theorem start_disciplined (jobs : W → Job) :
    (workers W).Disciplined (together W) (JobEnds jobs) (start jobs) := by
  intro w s env
  have idle := Idle.stable evolving w [] Store.empty _ s env (initial_idle_workers w)
  have appends : ∀ headSha fromSeq toSeq ws db db',
      Appended evolving headSha fromSeq toSeq ws db db' → Committed db db' :=
    fun _ _ _ _ _ _ appended => Or.inl ⟨_, _, _, _, appended⟩
  have rewinds : ∀ stored new done ws db db',
      Rewound evolving stored new done ws db db' → Committed db db' :=
    fun _ _ _ _ _ _ rewound => Or.inr (Or.inl ⟨_, _, _, _, rewound⟩)
  have rebuilds : ∀ plan done ws seen db db',
      Rebuilt evolving plan done ws seen db db' → Committed db db' :=
    fun _ _ _ _ _ _ rebuilt => Or.inr (Or.inr ⟨_, _, _, _, rebuilt⟩)
  simp only [start]
  cases job : jobs w with
  | assign baseBranch =>
    apply Machine.Guarded.bind
    refine (assignSequence_does baseBranch appends rewinds s idle).mono fun result s' ended => ?_
    cases result with
    | ok outcome =>
      change JobEnds jobs w (.ok (.assign outcome)) s'
      simpa only [Machine.ends, JobEnds, job] using ended
    | error fault => simpa only [Machine.ends, JobEnds, job] using ended
  | reassign stored new =>
    apply Machine.Guarded.bind
    refine (reassignSequence_does (rewinds stored new) s idle).mono fun result s' ended => ?_
    cases result with
    | ok outcome =>
      change JobEnds jobs w (.ok (.assign outcome)) s'
      simpa only [Machine.ends, JobEnds, job] using ended
    | error fault => simpa only [Machine.ends, JobEnds, job] using ended
  | repair =>
    apply Machine.Guarded.bind
    refine (repairSequence_does rebuilds s idle).mono fun result s' ended => ?_
    cases result with
    | ok outcome =>
      change JobEnds jobs w (.ok (.repair outcome)) s'
      simpa only [Machine.ends, JobEnds, job] using ended
    | error fault => simpa only [Machine.ends, JobEnds, job] using ended

/-! ### Runs of the pool -/

variable {jobs : W → Job} {c c' next : Workers W} {w : W}

/-- What one call may do to the shared state, in any reachable configuration. -/
theorem Reaches.guarantee (reached : (workers W).Reaches (start jobs) c)
    (step : (workers W).Step w c next) : Guarantee Committed w c.shared next.shared :=
  (step.disciplined (reached.disciplined (start_disciplined jobs))).1

/-- One call leaves rows and head alone, or commits a whole transaction. -/
theorem Reaches.moves (reached : (workers W).Reaches (start jobs) c)
    (step : (workers W).Step w c next) :
    Frozen c.shared.db next.shared.db ∨ Committed c.shared.db next.shared.db := by
  obtain ⟨new, -, frozen | ⟨-, committed, -⟩⟩ := (Reaches.guarantee reached step).wal
  · exact Or.inl frozen
  · exact Or.inr committed

theorem Reaches.evolves (reached : (workers W).Reaches (start jobs) c)
    (later : (workers W).Reaches c c') : Evolves c.shared.db c'.shared.db := by
  induction later with
  | refl => exact Evolves.of_frozen (Frozen.refl _)
  | tail before last ih =>
    obtain ⟨w, step⟩ := last
    rcases Reaches.moves (reached.trans before) step with frozen | committed
    · exact ih.trans (Evolves.of_frozen frozen)
    · exact ih.trans committed.evolves

theorem Reaches.sound (reached : (workers W).Reaches (start jobs) c) : Sound c.shared.db :=
  (Reaches.evolves .refl reached).sound sound_empty

/-- What took effect stays in the log. -/
theorem Reaches.own_mono (reached : (workers W).Reaches (start jobs) c)
    (later : (workers W).Reaches c c') {write : Write} (logged : write ∈ c.shared.own w) :
    write ∈ c'.shared.own w := by
  induction later with
  | refl => exact logged
  | tail before last ih =>
    obtain ⟨v, step⟩ := last
    obtain ⟨new, grown, -⟩ := (Reaches.guarantee (reached.trans before) step).wal
    simp only [World.own, grown, List.filter_append, List.map_append]
    exact List.mem_append_left _ ih

/-- A call that changes rows or head leaves one of the statements that do so in the log. -/
theorem Reaches.logged (reached : (workers W).Reaches (start jobs) c)
    (step : (workers W).Step w c next) (changed : ¬ Frozen c.shared.db next.shared.db) :
    ∃ write ∈ next.shared.own w, write.onCore = true := by
  obtain ⟨new, grown, effect⟩ := (Reaches.guarantee reached step).wal
  obtain ⟨-, -, write, member, heavy⟩ := effect.resolve_left changed
  refine ⟨write, ?_, heavy⟩
  have own := World.own_append c.shared w next.shared.db next.shared.lock next.shared.writes new
  rw [← grown] at own
  change write ∈ (World.mk _ _ _ _).own w
  rw [own]
  exact List.mem_append_right _ member

/-! ### Runs that leave the tables as they were -/

/-- The results of a run that has committed nothing. A thrown error is one, except for an
assignment, which still publishes its event after the commit. -/
def Uncommitted : Job → Except Fault Ended → Prop
  | _, .ok (.assign (.assigned ..)) => False
  | _, .ok (.assign (.reassigned ..)) => False
  | _, .ok (.repair (.repaired ..)) => False
  | _, .ok _ => True
  | .assign _, .error _ => False
  | _, .error _ => True

/-- No statement of the list writes rows or head. -/
def Light (ws : List Write) : Prop := ∀ write ∈ ws, write.onCore = false

instance (ws : List Write) : Decidable (Light ws) :=
  inferInstanceAs (Decidable (∀ write ∈ ws, _))

variable {s : World W}

theorem Idle.light {history : List Write} (idle : Idle E w history d s) (light : Light history) :
    Light (s.own w) := by
  rw [idle.own]
  exact light

theorem light_marks (reason : String) :
    Light [] ∧ Light [.markReassigning] ∧ Light [.markStale reason] ∧
      Light [.markReassigning, .markStale reason] := by
  refine ⟨?_, ?_, ?_, ?_⟩ <;> simp [Light, Write.onCore]

theorem ReassignEnds.light {stored new : Sha} (ended : ReassignEnds E w stored new d outcome s)
    (uncommitted : Uncommitted (.reassign stored new) (.ok (.assign outcome))) :
    Light (s.own w) := by
  cases outcome with
  | rewritten => exact ended.1.light (light_marks "").2.1
  | skipped reason => exact ended.1.light (light_marks "").2.1
  | stale reason => exact Idle.light ended (light_marks reason).2.2.2
  | reassigned => exact uncommitted.elim
  | assigned => exact uncommitted.elim
  | noBranch => exact ended.elim
  | locked => exact ended.elim

theorem AssignEnds.light {baseBranch : String} (ended : AssignEnds E w d outcome s)
    (uncommitted : Uncommitted (.assign baseBranch) (.ok (.assign outcome))) : Light (s.own w) := by
  rcases ended with ended | ⟨seen, stored, new, -, -, ended⟩
  · cases outcome with
    | assigned => exact uncommitted.elim
    | reassigned => exact uncommitted.elim
    | rewritten => exact ended.elim
    | skipped reason => exact ended.1.light (light_marks "").1
    | noBranch => exact Idle.light ended (light_marks "").1
    | locked => exact Idle.light ended (light_marks "").1
    | stale reason =>
      rcases ended with idle | idle
      · exact idle.light (light_marks reason).1
      · exact idle.light (light_marks reason).2.2.1
  · apply ReassignEnds.light ended
    cases outcome <;> exact uncommitted

theorem ReassignThrows.light (ended : ReassignThrows E w d s) : Light (s.own w) := by
  rcases ended with idle | idle
  · exact idle.light (light_marks "").1
  · exact idle.light (light_marks "").2.1

theorem RepairEnds.light {outcome : RepairOutcome} (ended : RepairEnds E w d outcome s)
    (uncommitted : Uncommitted .repair (.ok (.repair outcome))) : Light (s.own w) := by
  cases outcome with
  | consistent =>
    obtain ⟨first, seen, head, space, actual, intent, ⟨idle, -⟩, -⟩ := ended
    apply idle.light
    simp [Light, Write.onCore]
  | repaired => exact uncommitted.elim
  | noBranch => exact Idle.light ended (light_marks "").1
  | locked => exact Idle.light ended (light_marks "").1
  | skipped reason =>
    rcases ended with idle | ⟨-, first, space, -, idle⟩
    · exact idle.light (light_marks "").1
    · apply idle.light
      simp [Light, Write.onCore]
  | stale reason =>
    rcases ended with idle | idle
    · exact idle.light (light_marks reason).2.2.1
    · exact idle.light (light_marks reason).2.2.2

theorem JobEnds.light {result : Except Fault Ended} (ended : JobEnds jobs w result s)
    (uncommitted : Uncommitted (jobs w) result) : Light (s.own w) := by
  cases job : jobs w with
  | assign baseBranch =>
    rw [job] at uncommitted
    cases result with
    | error fault => exact uncommitted.elim
    | ok value =>
      cases value <;> simp only [JobEnds, job] at ended
      exact AssignEnds.light ended uncommitted
  | reassign stored new =>
    rw [job] at uncommitted
    cases result with
    | error fault =>
      simp only [JobEnds, job] at ended
      exact ReassignThrows.light ended
    | ok value =>
      cases value <;> simp only [JobEnds, job] at ended
      exact ReassignEnds.light ended uncommitted
  | repair =>
    rw [job] at uncommitted
    cases result with
    | error fault =>
      simp only [JobEnds, job] at ended
      exact ReassignThrows.light ended
    | ok value =>
      cases value <;> simp only [JobEnds, job] at ended
      exact RepairEnds.light ended uncommitted

/-- What an assignment that throws has left: no statement on rows or head, or one assignment. -/
theorem AssignThrows.light_or_whole (ended : AssignThrows E w d s) :
    Light (s.own w) ∨ ∃ core newHead entries requests,
      s.own w = appendWrites core newHead entries requests := by
  rcases ended with throws | ⟨headSha, fromSeq, toSeq, ws, db, db', ⟨idle, -⟩, appended⟩
  · exact Or.inl throws.light
  · obtain ⟨commits, entries, requests, -, -, rfl, -⟩ := appended.shape
    exact Or.inr ⟨_, _, _, _, idle.own⟩

/-- A call of a worker that ends light changed neither rows nor head. -/
theorem Reaches.frozen_of_light (reached : (workers W).Reaches (start jobs) c)
    (step : (workers W).Step w c next) (later : (workers W).Reaches next c')
    (light : Light (c'.shared.own w)) : Frozen c.shared.db next.shared.db := by
  by_contra changed
  obtain ⟨write, logged, heavy⟩ := Reaches.logged reached step changed
  have stays := Reaches.own_mono (reached.tail ⟨w, step⟩) later logged
  rw [light write stays] at heavy
  cases heavy

end

/-- The branch has one commit. -/
def oneCommit : Choice where
  repository := some ⟨"active", ["main"]⟩
  resolveHead := .ok (some "r")
  firstParentCommits _ _ := .ok [⟨"r", 0⟩]

def assigning : Workers Unit := start fun _ => .assign "main"

/-- The same branch, with the event bus down. -/
def busDown : Choice :=
  { oneCommit with
    external := fun
      | .publish _ => .error (.error "bus down")
      | _ => .ok () }

end PrSearch.Sequence
