import Mathlib.Logic.Function.Basic
import PrSearch.Lib.Program

/-! # Interleaved programs

A pool of workers, each at some point of its own program, shares one state; a step is one call of
one worker. The soundness theorem turns guarded programs into facts about every interleaving: when
the guarantee of each worker lies within the rely of every other, each worker stays guarded and each
step of the whole pool keeps the guarantee of the worker that makes it.
-/

universe u

/-- A shared state and what is left of each worker's program. -/
structure Config (Op : Type → Type u) (ε W α σ : Type) where
  shared : σ
  pool : W → Prog Op ε α

namespace Machine

variable {Op : Type → Type u} {ε W C σ : Type} {α β : Type} [DecidableEq W]

/-- Worker `w` makes one call. -/
inductive Step (M : Machine Op ε W C σ) (w : W) :
    Config Op ε W α σ → Config Op ε W α σ → Prop
  | call {β : Type} {op : Op β} {k : Except ε β → Prog Op ε α} {r : Except ε β} {s' : σ}
      {c : Config Op ε W α σ} (turn : c.pool w = .call op k)
      (ran : M.Exec w op c.shared r s') :
      Step M w c ⟨s', Function.update c.pool w (k r)⟩

/-- Every configuration that some interleaving leads to. -/
def Reaches (M : Machine Op ε W C σ) : Config Op ε W α σ → Config Op ε W α σ → Prop :=
  Relation.ReflTransGen fun c c' => ∃ w, M.Step w c c'

variable {M : Machine Op ε W C σ} {c c' : Config Op ε W α σ}

/-! ### Schedules -/

/-- One turn of worker `w` under choice `c`; a worker that has ended makes none. -/
def turn (M : Machine Op ε W C σ) (w : W) (c : C) (config : Config Op ε W α σ) :
    Option (Config Op ε W α σ) :=
  match config.pool w with
  | .ret _ => none
  | .raise _ => none
  | .call op k =>
      match M.step w c op config.shared with
      | none => none
      | some (r, s') => some ⟨s', Function.update config.pool w (k r)⟩

/-- The turns of a schedule, one after another. -/
def schedule (M : Machine Op ε W C σ) :
    List (W × C) → Config Op ε W α σ → Option (Config Op ε W α σ)
  | [], config => some config
  | (w, c) :: rest, config =>
      match M.turn w c config with
      | none => none
      | some next => M.schedule rest next

theorem reaches_of_schedule (M : Machine Op ε W C σ)
    (admitted : ∀ (w : W) (c : C) {β : Type} (op : Op β) (s : σ), M.admits w c op s)
    {turns : List (W × C)} {config config' : Config Op ε W α σ}
    (scheduled : M.schedule turns config = some config') : M.Reaches config config' := by
  induction turns generalizing config with
  | nil =>
    simp only [schedule, Option.some.injEq] at scheduled
    subst scheduled
    exact .refl
  | cons first rest ih =>
    obtain ⟨w, c⟩ := first
    simp only [schedule] at scheduled
    split at scheduled
    · cases scheduled
    next next taken =>
      refine Relation.ReflTransGen.head ⟨w, ?_⟩ (ih scheduled)
      unfold turn at taken
      split at taken
      · cases taken
      · cases taken
      next op k here =>
        split at taken
        · cases taken
        next r s' stepped =>
          simp only [Option.some.injEq] at taken
          subst taken
          exact .call here ⟨c, admitted w c op _, stepped⟩

/-- A configuration that passes `check` is reached when a schedule leads to one. -/
theorem reaches_of_check (M : Machine Op ε W C σ)
    (admitted : ∀ (w : W) (c : C) {β : Type} (op : Op β) (s : σ), M.admits w c op s)
    (turns : List (W × C)) (config : Config Op ε W α σ) (check : Config Op ε W α σ → Bool)
    (checked : (M.schedule turns config).any check = true) :
    ∃ config', M.Reaches config config' ∧ check config' = true := by
  rw [Option.any_eq_true] at checked
  obtain ⟨config', scheduled, passed⟩ := checked
  exact ⟨config', M.reaches_of_schedule admitted scheduled, passed⟩

/-! ### Soundness -/

/-- A rely and a guarantee for each worker that fit together. -/
structure Discipline (W σ : Type) where
  rely : W → σ → σ → Prop
  guarantee : W → σ → σ → Prop
  refl : ∀ w s, rely w s s
  trans : ∀ w {s s' s''}, rely w s s' → rely w s' s'' → rely w s s''
  compatible : ∀ {v w}, v ≠ w → ∀ {s s'}, guarantee v s s' → rely w s s'

/-- Every worker's program is guarded, and stays so under interference. -/
def Disciplined (M : Machine Op ε W C σ) (D : Discipline W σ)
    (Q : W → Except ε α → σ → Prop) (c : Config Op ε W α σ) : Prop :=
  ∀ w s, D.rely w c.shared s → M.Guarded (D.rely w) (D.guarantee w) w (c.pool w) (Q w) s

variable {D : Discipline W σ} {Q : W → Except ε α → σ → Prop} {w : W}

theorem Step.disciplined (step : M.Step w c c') (disciplined : M.Disciplined D Q c) :
    D.guarantee w c.shared c'.shared ∧ M.Disciplined D Q c' := by
  obtain ⟨turn, ran⟩ := step
  have guarded := disciplined w c.shared (D.refl w c.shared)
  rw [turn] at guarded
  obtain ⟨kept, rest⟩ := guarded _ _ ran
  refine ⟨kept, ?_⟩
  intro v s env
  by_cases same : v = w
  · subst same
    simp only [Function.update_self]
    exact rest s env
  · simp only [Function.update_of_ne same]
    exact disciplined v s (D.trans v (D.compatible (Ne.symm same) kept) env)

/-- In every interleaving each worker stays guarded. -/
theorem Reaches.disciplined (reached : M.Reaches c c') (disciplined : M.Disciplined D Q c) :
    M.Disciplined D Q c' := by
  induction reached with
  | refl => exact disciplined
  | tail _ last ih =>
    obtain ⟨w, step⟩ := last
    exact (step.disciplined ih).2

/-- A worker that has ended has ended within its postcondition. -/
theorem Reaches.result (reached : M.Reaches c c') (disciplined : M.Disciplined D Q c)
    {r : Except ε α} (ended : (c'.pool w).result? = some r) : Q w r c'.shared := by
  have guarded := reached.disciplined disciplined w c'.shared (D.refl w c'.shared)
  cases h : c'.pool w with
  | ret a =>
    rw [h] at ended guarded
    simp only [Prog.result?, Option.some.injEq] at ended
    exact ended ▸ guarded
  | raise e =>
    rw [h] at ended guarded
    simp only [Prog.result?, Option.some.injEq] at ended
    exact ended ▸ guarded
  | call op k =>
    rw [h] at ended
    cases ended

end Machine
