import PrSearch.Sequence.Repair

/-! # What a worker may rely on

The advisory lock and the transactions, as a rely-guarantee discipline. While a worker holds the
lock, others can only touch the state column and the error text of the space; without it, they move
the tables along `since`. A worker in turn changes more than the state only at a `COMMIT` under the
lock, and then by one of the transitions it declares.
-/
namespace PrSearch.Sequence

/-! ### Stores up to their state column -/

/-- The space row without its state and error; a space that does not exist yet counts as a fresh
one, which is what creating it would give. -/
def Tables.core (t : Tables) : SequenceSpace :=
  { t.space.getD ⟨1, none, 0, .ok, none, 0, 0, none⟩ with state := .ok, lastError := none }

/-- Rows, evidence and head are the same; state, error and outgoing requests may differ. -/
structure Frozen (d d' : Store) : Prop where
  rows : d'.rows = d.rows
  evidence : d'.evidence = d.evidence
  core : d'.core = d.core

theorem Frozen.refl (d : Store) : Frozen d d := ⟨rfl, rfl, rfl⟩

theorem Frozen.trans {a b c : Store} (first : Frozen a b) (second : Frozen b c) : Frozen a c :=
  ⟨second.rows.trans first.rows, second.evidence.trans first.evidence,
    second.core.trans first.core⟩

/-- Statements that write rows, evidence or head, and not only the state column or a request. -/
def Write.onCore : Write → Bool
  | .markStale .. | .markReassigning | .restoreSequenceState .. | .request .. => false
  | _ => true

variable {d : Store} {E : Setting}

theorem Write.frozen_of_run {write : Write} {d' : Store} {count : Int}
    (light : write.onCore = false) (ran : write.run d = .ok (count, d')) : Frozen d d' := by
  cases write with
  | markStale reason =>
    simp only [Write.run] at ran
    split at ran
    next accepted =>
      cases ran
      have same := Tables.accept_ok accepted
      refine ⟨?_, ?_, ?_⟩ <;> rw [same] <;> unfold Tables.markStale <;>
        cases h : d.space <;> simp [Tables.core, h]
    next => cases ran
  | markReassigning =>
    simp only [Write.run] at ran
    split at ran
    next accepted =>
      cases ran
      have same := Tables.accept_ok accepted
      refine ⟨?_, ?_, ?_⟩ <;> rw [same] <;>
        cases h : d.space <;> simp [Tables.core, Tables.markReassigning, Tables.updateSpace, h]
    next => cases ran
  | restoreSequenceState state lastError =>
    simp only [Write.run] at ran
    split at ran
    next accepted =>
      cases ran
      have same := Tables.accept_ok accepted
      refine ⟨?_, ?_, ?_⟩ <;> rw [same]
      · rfl
      · rfl
      · cases h : d.space with
        | none => simp [Tables.core, Tables.restoreSequenceState, Tables.updateSpace, h]
        | some space =>
          by_cases marked : space.state = .reassigning <;>
            simp [Tables.core, Tables.restoreSequenceState, Tables.updateSpace, h, marked]
    next => cases ran
  | request intent =>
    simp only [Write.run] at ran
    split at ran
    next accepted =>
      cases ran
      have same := Tables.accept_ok accepted
      refine ⟨?_, ?_, ?_⟩ <;> rw [same] <;> rfl
    next => cases ran
  | _ => cases light

/-! ### The discipline -/

/-- What the reasoning is relative to: the outside answers that may come, and how the tables may
have moved while a worker did not hold the lock. -/
structure Setting where
  allow : Choice → Prop
  since : Store → Store → Prop
  trans : ∀ {a b c}, since a b → since b c → since a c
  frozen : ∀ {a b}, Frozen a b → since a b

theorem Setting.refl (E : Setting) (d : Store) : E.since d d := E.frozen (Frozen.refl d)

variable {history : List Write} {d₀ : Store}

section

variable {W : Type} [DecidableEq W]

structure Rely (E : Setting) (w : W) (s s' : World W) : Prop where
  writes : s'.writes w = s.writes w
  lock : s'.lock = some w ↔ s.lock = some w
  own : s'.own w = s.own w
  held : s.lock = some w → Frozen s.db s'.db
  since : E.since s.db s'.db

/-- `T` are the changes of the core that the worker commits. -/
structure Guarantee (T : Store → Store → Prop) (w : W) (s s' : World W) : Prop where
  writes : ∀ v, v ≠ w → s'.writes v = s.writes v
  lock : ∀ v, v ≠ w → (s'.lock = some v ↔ s.lock = some v)
  wal : ∃ new : List Write, s'.wal = s.wal ++ new.map (fun write => (w, write)) ∧
    (Frozen s.db s'.db ∨
      s.lock = some w ∧ T s.db s'.db ∧ ∃ write ∈ new, write.onCore = true)

theorem Rely.refl (E : Setting) (w : W) (s : World W) : Rely E w s s :=
  ⟨rfl, Iff.rfl, rfl, fun _ => Frozen.refl s.db, E.refl s.db⟩

variable {w : W} {s : World W}

variable {s' : World W} {v : W}

theorem Rely.trans {s'' : World W} (first : Rely E w s s') (second : Rely E w s' s'') :
    Rely E w s s'' :=
  ⟨second.writes.trans first.writes, second.lock.trans first.lock, second.own.trans first.own,
    fun held => (first.held held).trans (second.held (first.lock.mpr held)),
    E.trans first.since second.since⟩

private theorem own_append_other (other : v ≠ w) {new : List Write}
    (grown : s'.wal = s.wal ++ new.map fun write => (v, write)) : s'.own w = s.own w := by
  have none_own : (new.map fun write => (v, write)).filter (fun entry => entry.1 = w) = [] := by
    rw [List.filter_eq_nil_iff]
    intro entry member
    obtain ⟨write, _, rfl⟩ := List.mem_map.mp member
    simpa using other
  simp only [World.own, grown, List.filter_append, none_own, List.append_nil]

/-- What one worker guarantees, every other may rely on. -/
theorem Guarantee.rely {T : Store → Store → Prop} (moves : ∀ {d d'}, T d d' → E.since d d')
    (other : v ≠ w) (kept : Guarantee T v s s') : Rely E w s s' := by
  obtain ⟨new, grown, effect⟩ := kept.wal
  refine ⟨kept.writes w other.symm, kept.lock w other.symm, own_append_other other grown, ?_, ?_⟩
  · intro held
    rcases effect with frozen | ⟨mine, _⟩
    · exact frozen
    · rw [held] at mine
      exact absurd (Option.some.inj mine).symm other
  · rcases effect with frozen | ⟨_, moved, _⟩
    · exact E.frozen frozen
    · exact moves moved

/-- The discipline of a pool of workers that all commit transitions of `T`. -/
def discipline (E : Setting) (T : Store → Store → Prop)
    (moves : ∀ {d d'}, T d d' → E.since d d') : Machine.Discipline W (World W) where
  rely := Rely E
  guarantee := Guarantee T
  refl := Rely.refl E
  trans _ _ _ _ := Rely.trans
  compatible other _ _ kept := kept.rely moves other

/-! ### Where a worker stands -/

/-- Nothing open; what took effect is `history`, and the tables have come from `d`. -/
structure Idle (E : Setting) (w : W) (history : List Write) (d : Store) (s : World W) : Prop where
  writes : s.writes w = []
  lock : s.lock ≠ some w
  own : s.own w = history
  since : E.since d s.db

/-- The lock is held over the tables `d`, with the statements `ws` not committed. -/
structure Holding (w : W) (history ws : List Write) (d : Store) (s : World W) : Prop where
  lock : s.lock = some w
  writes : s.writes w = ws
  own : s.own w = history
  frozen : Frozen d s.db

/-- Somewhere inside a transaction, or past one. -/
structure Open (E : Setting) (w : W) (history : List Write) (d : Store) (s : World W) : Prop where
  own : s.own w = history
  since : E.since d s.db

def Stable (E : Setting) (w : W) (P : World W → Prop) : Prop :=
  ∀ s s', Rely E w s s' → P s → P s'

theorem Idle.stable (E : Setting) (w : W) (history : List Write) (d : Store) :
    Stable E w (Idle E w history d) :=
  fun _ _ env idle => ⟨env.writes.trans idle.writes, fun held => idle.lock (env.lock.mp held),
    env.own.trans idle.own, E.trans idle.since env.since⟩

theorem Holding.stable (E : Setting) (w : W) (history ws : List Write) (d : Store) :
    Stable E w (Holding w history ws d) :=
  fun _ _ env holds => ⟨env.lock.mpr holds.lock, env.writes.trans holds.writes,
    env.own.trans holds.own, holds.frozen.trans (env.held holds.lock)⟩

theorem Idle.opened (idle : Idle E w history d s) : Open E w history d s := ⟨idle.own, idle.since⟩

theorem Idle.rebase (reached : E.since d₀ d) (idle : Idle E w history d s) :
    Idle E w history d₀ s :=
  ⟨idle.writes, idle.lock, idle.own, E.trans reached idle.since⟩

theorem Holding.opened {ws : List Write} (reached : E.since d₀ d) (holds : Holding w history ws d s) :
    Open E w history d₀ s :=
  ⟨holds.own, E.trans reached (E.frozen holds.frozen)⟩

theorem Stable.and_const {P : World W → Prop} (stable : Stable E w P) (φ : Prop) :
    Stable E w fun s => P s ∧ φ :=
  fun s s' env holds => ⟨stable s s' env holds.1, holds.2⟩

end

end PrSearch.Sequence
