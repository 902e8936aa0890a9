import PrSearch.Sequence.Discipline

/-! # One rule for each kind of call

How each call moves a worker between `Idle`, `Holding` and `Open`, under the discipline of the
previous module. Calls that only read or fail keep whatever is stable; the writing calls extend
either the open transaction or the history of what took effect.
-/
namespace PrSearch.Sequence

variable {W : Type} [DecidableEq W] {E : Setting} {T : Store → Store → Prop} {w : W} {α β : Type}

/-- A triple of the sequence machine under the discipline. -/
abbrev Does (E : Setting) (T : Store → Store → Prop) (w : W) (P : World W → Prop)
    (p : Program α) (Q : α → World W → Prop) (X : World W → Prop) : Prop :=
  (machine W E.allow).Triple (Rely E w) (Guarantee T w) w P p Q fun _ => X

theorem Guarantee.unchanged (T : Store → Store → Prop) (w : W) (s : World W) :
    Guarantee T w s s :=
  ⟨fun _ _ => rfl, fun _ _ => Iff.rfl, [], by simp, Or.inl (Frozen.refl s.db)⟩

variable {P X : World W → Prop} {Q : α → World W → Prop} {p : Program α} {history ws : List Write}
  {d : Store}

/-! ### Structure -/

theorem Does.pure {a : α} (holds : ∀ s, P s → Q a s) : Does E T w P (Pure.pure a) Q X :=
  fun s here => holds s here

theorem Does.raise {fault : Fault} (holds : ∀ s, P s → X s) : Does E T w P (.raise fault) Q X :=
  fun s here => holds s here

variable {f : α → Program β} {Q' : β → World W → Prop} {P' X' : World W → Prop} {op : Op β}

theorem Does.bind (first : Does E T w P p Q X) (rest : ∀ a, Does E T w (Q a) (f a) Q' X) :
    Does E T w P (p >>= f) Q' X :=
  Machine.Triple.bind first rest

/-- As `Does.bind`, when the first part fails within a stronger assertion. -/
theorem Does.andThen {X₀ : World W → Prop} (first : Does E T w P p Q X₀) (error : ∀ s, X₀ s → X s)
    (rest : ∀ a, Does E T w (Q a) (f a) Q' X) : Does E T w P (p >>= f) Q' X :=
  Does.bind (Machine.Triple.consequence first (fun _ => id) (fun _ _ => id) fun _ => error) rest

theorem Does.weaken {Q' : α → World W → Prop} (triple : Does E T w P p Q X) (pre : ∀ s, P' s → P s)
    (post : ∀ a s, Q a s → Q' a s) (error : ∀ s, X s → X' s) : Does E T w P' p Q' X' :=
  Machine.Triple.consequence triple pre post fun _ => error

theorem Does.pre (triple : Does E T w P p Q X) (pre : ∀ s, P' s → P s) : Does E T w P' p Q X :=
  triple.weaken pre (fun _ _ => id) fun _ => id

/-- A fact about the precondition's state that does not mention it may be used as a hypothesis. -/
theorem Does.given {φ : Prop} (triple : φ → Does E T w P p Q X) :
    Does E T w (fun s => P s ∧ φ) p Q X :=
  fun s holds => triple holds.2 s holds.1

theorem Does.exists {ι : Sort*} {P : ι → World W → Prop} (triple : ∀ i, Does E T w (P i) p Q X) :
    Does E T w (fun s => ∃ i, P i s) p Q X :=
  fun s ⟨i, holds⟩ => triple i s holds

/-- A fact that does not mention the state stays true. -/
theorem Does.keeping (triple : Does E T w P p Q X) (φ : Prop) :
    Does E T w (fun s => P s ∧ φ) p (fun a s => Q a s ∧ φ) fun s => X s ∧ φ :=
  Does.given fun fact =>
    triple.weaken (fun _ => id) (fun _ _ holds => ⟨holds, fact⟩) fun _ holds => ⟨holds, fact⟩

theorem Does.either (first : Does E T w P p Q X) (second : Does E T w P' p Q X) :
    Does E T w (fun s => P s ∨ P' s) p Q X :=
  fun s holds => holds.elim (first s) (second s)

theorem Does.tryCatch {handler : Fault → Program α} (body : Does E T w P p Q X)
    (handled : ∀ fault, Does E T w X (handler fault) Q X') :
    Does E T w P (p.tryCatch handler) Q X' :=
  Machine.Triple.tryCatch body handled

/-- The rule of one call, from what the machine does. -/
theorem Does.call {Q : β → World W → Prop}
    (steps : ∀ c s r s', E.allow c → P s → step w c op s = some (r, s') →
      Guarantee T w s s' ∧ ∀ s'', Rely E w s' s'' → Machine.ends Q (fun _ => X) r s'') :
    Does E T w P (.perform op) Q X := by
  apply Machine.Triple.perform
  rintro s holds r s' ⟨c, allowed, stepped⟩
  exact steps c s r s' allowed holds stepped

/-- As `Does.call`, for a call whose answer the program inspects. -/
theorem Does.attempted {Q : Except Fault β → World W → Prop}
    (steps : ∀ c s r s', E.allow c → P s → step w c op s = some (r, s') →
      Guarantee T w s s' ∧ ∀ s'', Rely E w s' s'' → Q r s'') :
    Does E T w P (Program.attempt op) Q X := by
  rintro s holds r s' ⟨c, allowed, stepped⟩
  exact steps c s r s' allowed holds stepped

/-- As `Does.call`, for a call whose failure is swallowed. -/
theorem Does.swallowed {op : Op Unit} {Q : World W → Prop}
    (steps : ∀ c s r s', E.allow c → P s → step w c op s = some (r, s') →
      Guarantee T w s s' ∧ ∀ s'', Rely E w s' s'' → Q s'') :
    Does E T w P (Program.quietly op) (fun _ => Q) X := by
  rintro s holds r s' ⟨c, allowed, stepped⟩
  exact steps c s r s' allowed holds stepped

theorem Does.when {c : Prop} [Decidable c] {p : Program Unit} {Q : World W → Prop}
    (taken : c → Does E T w P p (fun _ => Q) X) (skipped : ¬ c → ∀ s, P s → Q s) :
    Does E T w P (Program.when c p) (fun _ => Q) X := by
  unfold Program.when
  split
  next yes => exact taken yes
  next no => exact Does.pure (skipped no)

theorem Does.discard {Q : World W → Prop} (ran : Does E T w P p (fun _ => Q) X) :
    Does E T w P (Functor.discard p) (fun _ => Q) X :=
  Does.bind ran fun _ => Does.pure fun _ => id

/-! ### Calls that change nothing -/

/-- A call that answers from the state it finds. -/
theorem Does.reads (stable : Stable E w P) (op : Op β) (answer : Choice → World W → Except Fault β)
    (step_eq : ∀ c s, step w c op s = answered (answer c s) s) :
    Does E T w P (.perform op)
      (fun a s => P s ∧ ∃ c s₀, E.allow c ∧ P s₀ ∧ Rely E w s₀ s ∧ answer c s₀ = .ok a) P := by
  apply Does.call
  intro c s r s' allowed holds stepped
  rw [step_eq, answered, Option.some.injEq, Prod.mk.injEq] at stepped
  obtain ⟨rfl, rfl⟩ := stepped
  refine ⟨Guarantee.unchanged T w s, fun s'' env => ?_⟩
  cases h : answer c s with
  | ok a => exact ⟨stable s s'' env holds, c, s, allowed, holds, env, h⟩
  | error fault => exact stable s s'' env holds

/-- A call to the outside. -/
theorem Does.asks (stable : Stable E w P) (op : Op β) (answer : Choice → Except Fault β)
    (step_eq : ∀ c s, step w c op s = answered (answer c) s) :
    Does E T w P (.perform op) (fun a s => P s ∧ ∃ c, E.allow c ∧ answer c = .ok a) P :=
  (Does.reads stable op (fun c _ => answer c) step_eq).weaken (fun _ => id)
    (fun _ _ ⟨holds, c, _, allowed, _, _, said⟩ => ⟨holds, c, allowed, said⟩) fun _ => id

theorem Does.attempts (stable : Stable E w P) (op : Op β) (answer : Choice → Except Fault β)
    (step_eq : ∀ c s, step w c op s = answered (answer c) s) :
    Does E T w P (Program.attempt op) (fun r s => P s ∧ ∃ c, E.allow c ∧ answer c = r) X := by
  apply Does.attempted
  intro c s r s' allowed holds stepped
  rw [step_eq, answered, Option.some.injEq, Prod.mk.injEq] at stepped
  obtain ⟨rfl, rfl⟩ := stepped
  exact ⟨Guarantee.unchanged T w s, fun s'' env => ⟨stable s s'' env holds, c, allowed, rfl⟩⟩

theorem Does.external (stable : Stable E w P) (what : External) :
    Does E T w P (Program.quietly (.external what)) (fun _ => P) X := by
  apply Does.swallowed
  intro c s r s' allowed holds stepped
  simp only [step, answered, Option.some.injEq, Prod.mk.injEq] at stepped
  obtain ⟨-, rfl⟩ := stepped
  exact ⟨Guarantee.unchanged T w s, fun s'' env => stable s s'' env holds⟩

/-- An effect whose failure is thrown. -/
theorem Does.publishes (stable : Stable E w P) (what : External) :
    Does E T w P (.perform (.external what)) (fun _ => P) P :=
  (Does.asks stable (.external what) (fun c => c.external what) fun _ _ => rfl).weaken
    (fun _ => id) (fun _ _ => And.left) fun _ => id

/-- The database may be down; otherwise the call answers `value`. -/
def Choice.orDown (c : Choice) (value : Except Fault β) : Except Fault β :=
  match c.database with
  | some fault => .error fault
  | none => value

theorem withDatabase_answered (c : Choice) (s : World W) (value : Except Fault β) :
    withDatabase c s (answered value s) = answered (c.orDown value) s := by
  cases h : c.database <;> simp only [withDatabase, Choice.orDown, answered, h]

theorem Choice.orDown_ok {c : Choice} {value : Except Fault β} {a : β}
    (answer : c.orDown value = .ok a) : value = .ok a := by
  unfold orDown at answer
  split at answer
  · cases answer
  · exact answer

theorem Does.connect (stable : Stable E w P) : Does E T w P (.perform .connect) (fun _ => P) P :=
  (Does.asks stable .connect (fun c => c.orDown (.ok ()))
    fun c s => withDatabase_answered c s _).weaken (fun _ => id) (fun _ _ => And.left) fun _ => id

theorem Does.begin (stable : Stable E w P) : Does E T w P (.perform .begin) (fun _ => P) P :=
  (Does.asks stable .begin (fun c => c.orDown (.ok ()))
    fun c s => withDatabase_answered c s _).weaken (fun _ => id) (fun _ _ => And.left) fun _ => id

theorem Does.findRepositoryById (stable : Stable E w P) :
    Does E T w P (.perform .findRepositoryById) (fun _ => P) P :=
  (Does.asks stable .findRepositoryById (fun c => c.orDown (.ok c.repository))
    fun c s => withDatabase_answered c s _).weaken (fun _ => id) (fun _ _ => And.left) fun _ => id

/-- A read on the pool sees some committed store that the tables have passed through. -/
theorem Does.queryPool (read : Store → β) :
    Does E T w (Idle E w history d) (Program.query .pool read)
      (fun a s => ∃ now, (Idle E w history now s ∧ E.since d now) ∧ a = read now)
      (Idle E w history d) := by
  refine (Does.reads (Idle.stable E w history d) (.query .pool read)
    (fun c s => c.orDown (.ok (read s.db)))
    fun c s => withDatabase_answered c s _).weaken (fun _ => id) ?_ fun _ => id
  rintro a s ⟨idle, c, s₀, -, before, env, said⟩
  have value := Choice.orDown_ok said
  refine ⟨s₀.db, ⟨⟨idle.writes, idle.lock, idle.own, env.since⟩, before.since⟩, ?_⟩
  exact (Except.ok.inj value).symm

/-- The answer of a read inside the transaction. -/
def World.seen (s : World W) (w : W) (read : Store → β) : Except Fault β :=
  match s.view w with
  | .error fault => .error fault
  | .ok view => .ok (read view)

/-- A read inside the transaction sees the held tables with the own statements replayed. -/
theorem Does.queryTx (read : Store → β) :
    Does E T w (Holding w history ws d) (Program.query .tx read)
      (fun a s => Holding w history ws d s ∧
        ∃ db view, Frozen d db ∧ replay ws db = .ok view ∧ a = read view)
      (Holding w history ws d) := by
  refine (Does.reads (Holding.stable E w history ws d) (.query .tx read)
    (fun c s => c.orDown (s.seen w read))
    fun c s => withDatabase_answered c s _).weaken (fun _ => id) ?_ fun _ => id
  rintro a s ⟨holds, c, s₀, -, before, -, said⟩
  refine ⟨holds, ?_⟩
  have value := Choice.orDown_ok said
  unfold World.seen at value
  cases seen : s₀.view w with
  | error fault => rw [seen] at value; cases value
  | ok view =>
    rw [seen] at value
    have replayed : replay ws s₀.db = .ok view := by rw [← before.writes]; exact seen
    exact ⟨s₀.db, view, before.frozen, replayed, (Except.ok.inj value).symm⟩

/-! ### Locks and transactions -/

theorem Does.lock :
    Does E T w (Idle E w history d) (.perform .trySequenceSpaceLock)
      (fun locked s => if locked then ∃ held, Holding w history [] held s ∧ E.since d held
        else Idle E w history d s)
      (Idle E w history d) := by
  apply Does.call
  intro c s r s' allowed idle stepped
  have stays : ∀ s'', Rely E w s s'' → Idle E w history d s'' :=
    fun s'' env => Idle.stable E w history d s s'' env idle
  simp only [step, withDatabase] at stepped
  split at stepped
  · cases stepped
    exact ⟨Guarantee.unchanged T w s, stays⟩
  · split at stepped
    · simp only [answered, Option.some.injEq, Prod.mk.injEq] at stepped
      obtain ⟨rfl, rfl⟩ := stepped
      exact ⟨Guarantee.unchanged T w s, stays⟩
    next free =>
      simp only [Option.some.injEq, Prod.mk.injEq] at stepped
      obtain ⟨rfl, rfl⟩ := stepped
      have none_held : s.lock = none := by
        by_contra held
        exact free (Or.inr held)
      refine ⟨⟨fun _ _ => rfl, fun v other => ?_, [], by simp, Or.inl (Frozen.refl s.db)⟩, ?_⟩
      · simp [none_held, other.symm]
      · intro s'' env
        refine ⟨s.db, ⟨env.lock.mpr rfl, env.writes.trans idle.writes, env.own.trans idle.own,
          env.held rfl⟩, idle.since⟩

/-- Try the lock and branch on whether it was free. -/
theorem Does.locking {free busy : Program α}
    (held : ∀ now, E.since d now → Does E T w (Holding w history [] now) free Q X)
    (refused : Does E T w (Idle E w history d) busy Q X) (failed : ∀ s, Idle E w history d s → X s) :
    Does E T w (Idle E w history d)
      (do
        let locked ← .perform .trySequenceSpaceLock
        if locked then free else busy) Q X := by
  refine Does.bind (Does.lock.weaken (fun _ => id) (fun _ _ => id) failed) fun locked => ?_
  cases locked with
  | true =>
    rintro s ⟨now, holds, reached⟩
    exact held now reached s holds
  | false => exact refused

theorem World.close_guarantee (T : Store → Store → Prop) (w : W) (s : World W) :
    Guarantee T w s (s.close w) := by
  refine ⟨fun v other => ?_, fun v other => ?_, [], by simp [World.close],
    Or.inl (Frozen.refl s.db)⟩
  · simp [World.close, Function.update_of_ne other]
  · simp only [World.close]
    split
    next held => simp [held, other.symm]
    next => rfl

theorem World.close_idle {s : World W} (here : Open E w history d s) :
    Idle E w history d (s.close w) := by
  refine ⟨by simp [World.close], ?_, here.own, here.since⟩
  simp only [World.close]
  split
  · simp
  next differs => exact differs

theorem Does.rollback :
    Does E T w (Open E w history d) (.perform .rollback) (fun _ => Idle E w history d)
      (Idle E w history d) := by
  apply Does.call
  intro c s r s' allowed here stepped
  have closed : s' = s.close w := by
    simp only [step, withDatabase] at stepped
    split at stepped <;> cases stepped <;> rfl
  subst closed
  refine ⟨World.close_guarantee T w s, fun s'' env => ?_⟩
  have idle := Idle.stable E w history d _ s'' env (World.close_idle here)
  cases r <;> exact idle

theorem Does.quietRollback :
    Does E T w (Open E w history d) (Program.quietly .rollback) (fun _ => Idle E w history d)
      X := by
  apply Does.swallowed
  intro c s r s' allowed here stepped
  have closed : s' = s.close w := by
    simp only [step, withDatabase] at stepped
    split at stepped <;> cases stepped <;> rfl
  subst closed
  exact ⟨World.close_guarantee T w s, fun s'' env =>
    Idle.stable E w history d _ s'' env (World.close_idle here)⟩

/-- A statement inside the transaction joins its statements. -/
theorem Does.executeTx (write : Write) :
    Does E T w (Holding w history ws d) (Program.execute .tx write)
      (fun count s => Holding w history (ws ++ [write]) d s ∧
        ∃ db view next, Frozen d db ∧ replay ws db = .ok view ∧ write.run view = .ok (count, next))
      (Holding w history ws d) := by
  apply Does.call
  intro c s r s' allowed holds stepped
  have stays : ∀ s'', Rely E w s s'' → Holding w history ws d s'' :=
    fun s'' env => Holding.stable E w history ws d s s'' env holds
  simp only [step, withDatabase] at stepped
  split at stepped
  · cases stepped
    exact ⟨Guarantee.unchanged T w s, stays⟩
  · simp only [Sequence.executeTx, Option.some.injEq] at stepped
    split at stepped
    · cases stepped
      exact ⟨Guarantee.unchanged T w s, stays⟩
    next view seen =>
      split at stepped
      · cases stepped
        exact ⟨Guarantee.unchanged T w s, stays⟩
      next count next ran =>
        cases stepped
        have replayed : replay ws s.db = .ok view := by rw [← holds.writes]; exact seen
        refine ⟨⟨fun v other => Function.update_of_ne other _ _, fun _ _ => Iff.rfl, [], by simp,
          Or.inl (Frozen.refl s.db)⟩, fun s'' env => ⟨?_, s.db, view, next, holds.frozen,
          replayed, ran⟩⟩
        refine ⟨env.lock.mpr holds.lock, ?_, env.own.trans holds.own,
          holds.frozen.trans (env.held holds.lock)⟩
        rw [env.writes]
        simp [holds.writes]

/-- `Does.executeTx` for a statement whose answer does not matter. -/
theorem Does.statement (write : Write) :
    Does E T w (Holding w history ws d) (Program.execute .tx write)
      (fun _ => Holding w history (ws ++ [write]) d) (Holding w history ws d) :=
  (Does.executeTx write).weaken (fun _ => id) (fun _ _ => And.left) fun _ => id

theorem World.own_append (s : World W) (w : W) (db : Store) (lock : Option W)
    (writes : W → List Write) (new : List Write) :
    (World.mk db lock writes (s.wal ++ new.map fun write => (w, write))).own w =
      s.own w ++ new := by
  have all_own : (new.map fun write => (w, write)).filter (fun entry => entry.1 = w) =
      new.map fun write => (w, write) := by
    rw [List.filter_eq_self]
    intro entry member
    obtain ⟨write, _, rfl⟩ := List.mem_map.mp member
    simp
  simp [World.own, List.filter_append, all_own]

/-- A light statement on the pool takes effect by itself. -/
theorem Does.executePool {P : List Write → World W → Prop} (write : Write)
    (light : write.onCore = false) (stays : ∀ s s', Rely E w s s' → P history s → P history s')
    (logs : ∀ s s', P history s → s'.writes = s.writes → s'.lock = s.lock →
      s'.own w = s.own w ++ [write] → Frozen s.db s'.db →
      ∀ s'', Rely E w s' s'' → P (history ++ [write]) s'') :
    Does E T w (P history) (Program.execute .pool write) (fun _ => P (history ++ [write]))
      (P history) := by
  apply Does.call
  intro c s r s' allowed holds stepped
  simp only [step, withDatabase] at stepped
  split at stepped
  · cases stepped
    exact ⟨Guarantee.unchanged T w s, fun s'' env => stays s s'' env holds⟩
  · unfold Sequence.executePool at stepped
    split at stepped
    · cases stepped
    · split at stepped
      · cases stepped
        exact ⟨Guarantee.unchanged T w s, fun s'' env => stays s s'' env holds⟩
      next count db ran =>
        simp only [Option.some.injEq, Prod.mk.injEq] at stepped
        obtain ⟨rfl, rfl⟩ := stepped
        have frozen := Write.frozen_of_run light ran
        refine ⟨⟨fun _ _ => rfl, fun _ _ => Iff.rfl, [write], by simp, Or.inl frozen⟩, ?_⟩
        have logged := World.own_append s w db s.lock s.writes [write]
        exact logs s { s with db := db, wal := s.wal ++ [(w, write)] } holds rfl rfl logged frozen

theorem Does.markIdle (write : Write) (light : write.onCore = false) :
    Does E T w (Idle E w history d) (Program.execute .pool write)
      (fun _ => Idle E w (history ++ [write]) d) (Idle E w history d) := by
  refine Does.executePool (P := fun history => Idle E w history d) write light
    (fun s s' env idle => Idle.stable E w history d s s' env idle) ?_
  intro s s' idle writes lock own frozen s'' env
  refine Idle.stable E w _ d s' s'' env ⟨?_, ?_, ?_, E.trans idle.since (E.frozen frozen)⟩
  · rw [writes, idle.writes]
  · rw [lock]; exact idle.lock
  · rw [own, idle.own]

theorem Does.markHolding (write : Write) (light : write.onCore = false) :
    Does E T w (Holding w history ws d) (Program.execute .pool write)
      (fun _ => Holding w (history ++ [write]) ws d) (Holding w history ws d) := by
  refine Does.executePool (P := fun history => Holding w history ws d) write light
    (fun s s' env holds => Holding.stable E w history ws d s s' env holds) ?_
  intro s s' holds writes lock own frozen s'' env
  refine Holding.stable E w _ ws d s' s'' env ⟨?_, ?_, ?_, holds.frozen.trans frozen⟩
  · rw [lock]; exact holds.lock
  · rw [writes, holds.writes]
  · rw [own, holds.own]

/-- `COMMIT` makes the statements one transition of the tables. -/
theorem Does.commit (reached : E.since d d) (heavy : ∃ write ∈ ws, write.onCore = true)
    (moves : ∀ db db', Frozen d db → replay ws db = .ok db' → T db db') :
    Does E T w (Holding w history ws d) (.perform .commit)
      (fun _ s => ∃ db db', (Idle E w (history ++ ws) db' s ∧ Frozen d db) ∧
        replay ws db = .ok db')
      (Idle E w history d) := by
  apply Does.call
  intro c s r s' allowed holds stepped
  have aborts : ∀ s'', Rely E w (s.close w) s'' → Idle E w history d s'' := fun s'' env =>
    Idle.stable E w history d _ s'' env (World.close_idle (holds.opened reached))
  simp only [step, withDatabase] at stepped
  split at stepped
  · cases stepped
    exact ⟨World.close_guarantee T w s, aborts⟩
  · simp only [commitTx, Option.some.injEq] at stepped
    split at stepped
    · cases stepped
      exact ⟨World.close_guarantee T w s, aborts⟩
    next db seen =>
      cases stepped
      have replayed : replay ws s.db = .ok db := by rw [← holds.writes]; exact seen
      have closed := World.close_guarantee T w s
      refine ⟨⟨closed.writes, closed.lock, ws, by rw [holds.writes], Or.inr ⟨holds.lock,
        moves s.db db holds.frozen replayed, heavy⟩⟩, fun s'' env => ?_⟩
      refine ⟨s.db, db, ⟨?_, holds.frozen⟩, replayed⟩
      refine Idle.stable E w _ db _ s'' env ⟨?_, ?_, ?_, E.refl db⟩
      · simp [World.close]
      · exact (World.close_idle (holds.opened reached)).lock
      · rw [holds.writes]
        exact (World.own_append s w db _ _ ws).trans (by rw [holds.own])

end PrSearch.Sequence
