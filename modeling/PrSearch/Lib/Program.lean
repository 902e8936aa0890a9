import Mathlib.Logic.Relation

/-! # Programs over fallible operations, and their rely-guarantee rules

A program is a tree of operation calls; every call may answer with a value or with an error. A
machine says what a call does to a shared state: the answer is fixed by a choice of the environment,
and the choices it may make are part of the machine. Programs are reasoned about with triples that
carry a rely (what other parties may do between two calls) and a guarantee (what each call of this
program does). A sequential run is the case in which nobody else acts.
-/

universe u

/-- A program that calls operations of `Op`, fails with `ε` and returns `α`. -/
inductive Prog (Op : Type → Type u) (ε α : Type) : Type (max 1 u)
  | ret (a : α)
  | raise (e : ε)
  | call {β : Type} (op : Op β) (k : Except ε β → Prog Op ε α)

namespace Prog

variable {Op : Type → Type u} {ε α β : Type}

def bind : Prog Op ε α → (α → Prog Op ε β) → Prog Op ε β
  | ret a, f => f a
  | raise e, _ => raise e
  | call op k, f => call op fun r => (k r).bind f

instance : Monad (Prog Op ε) where
  pure := ret
  bind := bind

/-- Call one operation; an error it answers is raised. -/
def perform (op : Op β) : Prog Op ε β :=
  call op fun
    | .ok b => ret b
    | .error e => raise e

/-- Run `p`; if it raises, continue with `handler`. -/
def tryCatch : Prog Op ε α → (ε → Prog Op ε α) → Prog Op ε α
  | ret a, _ => ret a
  | raise e, handler => handler e
  | call op k, handler => call op fun r => (k r).tryCatch handler

@[simp] theorem bind_eq (p : Prog Op ε α) (f : α → Prog Op ε β) : p >>= f = p.bind f := rfl

/-- How a program has ended, if it has. -/
def result? : Prog Op ε α → Option (Except ε α)
  | ret a => some (.ok a)
  | raise e => some (.error e)
  | call _ _ => none

end Prog

/-- What calls do: given the environment's choice, the answer and the next state, or `none` while
the call cannot proceed. `admits` restricts the choices and the states in which a call is made. -/
structure Machine (Op : Type → Type u) (ε W C σ : Type) where
  step : W → C → {β : Type} → Op β → σ → Option (Except ε β × σ)
  admits : W → C → {β : Type} → Op β → σ → Prop

namespace Machine

variable {Op : Type → Type u} {ε W C σ : Type} {α β : Type}

/-- One call of worker `w`. -/
def Exec (M : Machine Op ε W C σ) (w : W) (op : Op β) (s : σ) (r : Except ε β) (s' : σ) : Prop :=
  ∃ c, M.admits w c op s ∧ M.step w c op s = some (r, s')

variable {s : σ} {p : Prog Op ε α} {Q : α → σ → Prop} {E : ε → σ → Prop} {P : σ → Prop}

/-! ### Sequential runs -/

/-- Worker `w` runs `p` to its end with nobody else acting. -/
inductive Runs (M : Machine Op ε W C σ) (w : W) :
    Prog Op ε α → σ → Except ε α → σ → Prop
  | ret (a : α) (s : σ) : Runs M w (.ret a) s (.ok a) s
  | raise (e : ε) (s : σ) : Runs M w (.raise e) s (.error e) s
  | call {β : Type} {op : Op β} {k : Except ε β → Prog Op ε α} {s s' s'' : σ} {r : Except ε β}
      {out : Except ε α} (ran : M.Exec w op s r s') (rest : Runs M w (k r) s' out s'') :
      Runs M w (.call op k) s out s''

/-- A run of one machine is one of any other that allows its steps. -/
theorem Runs.mono {M' : Machine Op ε W C σ} {M : Machine Op ε W C σ} {w : W} {s' : σ}
    {out : Except ε α} (runs : M.Runs w p s out s')
    (allowed : ∀ {β : Type} (op : Op β) s r s', M.Exec w op s r s' → M'.Exec w op s r s') :
    M'.Runs w p s out s' := by
  induction runs with
  | ret a s => exact .ret a s
  | raise e s => exact .raise e s
  | call ran _ ih => exact .call (allowed _ _ _ _ ran) ih

/-- Run `p` with one choice for all its calls. -/
def eval (M : Machine Op ε W C σ) (w : W) (c : C) :
    Prog Op ε α → σ → Option (Except ε α × σ)
  | .ret a, s => some (.ok a, s)
  | .raise e, s => some (.error e, s)
  | .call op k, s =>
      match M.step w c op s with
      | none => none
      | some (r, s') => M.eval w c (k r) s'

variable {s' : σ} {out : Except ε α} {f : α → Prog Op ε β} {handler : ε → Prog Op ε α}
  {E' : ε → σ → Prop}

theorem runs_of_eval (M : Machine Op ε W C σ) (w : W) (c : C)
    (admitted : ∀ {β : Type} (op : Op β) (s : σ), M.admits w c op s)
    (evaluated : M.eval w c p s = some (out, s')) : M.Runs w p s out s' := by
  induction p generalizing s with
  | ret a =>
    simp only [eval, Option.some.injEq, Prod.mk.injEq] at evaluated
    obtain ⟨rfl, rfl⟩ := evaluated
    exact .ret a s
  | raise e =>
    simp only [eval, Option.some.injEq, Prod.mk.injEq] at evaluated
    obtain ⟨rfl, rfl⟩ := evaluated
    exact .raise e s
  | call op k ih =>
    simp only [eval] at evaluated
    split at evaluated
    · cases evaluated
    next r next stepped =>
      exact .call ⟨c, admitted op s, stepped⟩ (ih r evaluated)

/-- A run whose end passes `check` exists when evaluation finds one. -/
theorem runs_of_check (M : Machine Op ε W C σ) (w : W) (c : C)
    (admitted : ∀ {β : Type} (op : Op β) (s : σ), M.admits w c op s) (p : Prog Op ε α) (s : σ)
    (check : Except ε α × σ → Bool) (checked : (M.eval w c p s).any check = true) :
    ∃ out s', M.Runs w p s out s' ∧ check (out, s') = true := by
  rw [Option.any_eq_true] at checked
  obtain ⟨⟨out, s'⟩, evaluated, passed⟩ := checked
  exact ⟨out, s', M.runs_of_eval w c admitted evaluated, passed⟩

/-! ### Guarded programs -/

/-- Every call of `p` keeps `G`, whatever others do within `R` between the calls, and `p` ends
in `Q`. -/
def Guarded (M : Machine Op ε W C σ) (R G : σ → σ → Prop) (w : W) :
    Prog Op ε α → (Except ε α → σ → Prop) → σ → Prop
  | .ret a, Q, s => Q (.ok a) s
  | .raise e, Q, s => Q (.error e) s
  | .call op k, Q, s =>
      ∀ r s', M.Exec w op s r s' → G s s' ∧ ∀ s'', R s' s'' → M.Guarded R G w (k r) Q s''

/-- Returned values meet `Q`, raised errors meet `E`. -/
def ends (Q : α → σ → Prop) (E : ε → σ → Prop) : Except ε α → σ → Prop
  | .ok a => Q a
  | .error e => E e

/-- From every state of `P`, `p` is guarded, returns in `Q` and raises in `E`. -/
def Triple (M : Machine Op ε W C σ) (R G : σ → σ → Prop) (w : W) (P : σ → Prop)
    (p : Prog Op ε α) (Q : α → σ → Prop) (E : ε → σ → Prop) : Prop :=
  ∀ s, P s → M.Guarded R G w p (ends Q E) s

variable {M : Machine Op ε W C σ} {R G : σ → σ → Prop} {w : W}

theorem Guarded.mono {Q Q' : Except ε α → σ → Prop} (weaker : ∀ r s, Q r s → Q' r s)
    (guarded : M.Guarded R G w p Q s) : M.Guarded R G w p Q' s := by
  induction p generalizing s with
  | ret a => exact weaker _ s guarded
  | raise e => exact weaker _ s guarded
  | call op k ih =>
    intro r s' ran
    exact ⟨(guarded r s' ran).1, fun s'' env => ih r ((guarded r s' ran).2 s'' env)⟩

theorem Guarded.bind {Q : Except ε β → σ → Prop}
    (guarded : M.Guarded R G w p
      (ends (fun a => M.Guarded R G w (f a) Q) (fun e => Q (.error e))) s) :
    M.Guarded R G w (p >>= f) Q s := by
  induction p generalizing s with
  | ret a => exact guarded
  | raise e => exact guarded
  | call op k ih =>
    intro r s' ran
    exact ⟨(guarded r s' ran).1, fun s'' env => ih r ((guarded r s' ran).2 s'' env)⟩

theorem Guarded.tryCatch {Q : Except ε α → σ → Prop}
    (guarded : M.Guarded R G w p
      (ends (fun a => Q (.ok a)) (fun e => M.Guarded R G w (handler e) Q)) s) :
    M.Guarded R G w (p.tryCatch handler) Q s := by
  induction p generalizing s with
  | ret a => exact guarded
  | raise e => exact guarded
  | call op k ih =>
    intro r s' ran
    exact ⟨(guarded r s' ran).1, fun s'' env => ih r ((guarded r s' ran).2 s'' env)⟩

theorem Triple.consequence {P' : σ → Prop} {Q' : α → σ → Prop} (triple : M.Triple R G w P p Q E)
    (pre : ∀ s, P' s → P s) (post : ∀ a s, Q a s → Q' a s) (error : ∀ e s, E e s → E' e s) :
    M.Triple R G w P' p Q' E' := by
  intro s holds
  refine (triple s (pre s holds)).mono ?_
  intro r s ended
  cases r with
  | ok a => exact post a s ended
  | error e => exact error e s ended

theorem Triple.bind {Q' : β → σ → Prop} (first : M.Triple R G w P p Q E)
    (rest : ∀ a, M.Triple R G w (Q a) (f a) Q' E) : M.Triple R G w P (p >>= f) Q' E := by
  intro s holds
  refine Guarded.bind ((first s holds).mono ?_)
  intro r s ended
  cases r with
  | ok a => exact rest a s ended
  | error e => exact ended

theorem Triple.tryCatch (body : M.Triple R G w P p Q E)
    (handled : ∀ e, M.Triple R G w (E e) (handler e) Q E') :
    M.Triple R G w P (p.tryCatch handler) Q E' := by
  intro s holds
  refine Guarded.tryCatch ((body s holds).mono ?_)
  intro r s ended
  cases r with
  | ok a => exact ended
  | error e => exact handled e s ended

/-- The rule of one call: each way it can go keeps the guarantee and leads, after any interference,
to the postcondition. -/
theorem Triple.perform {op : Op β} {Q : β → σ → Prop}
    (called : ∀ s, P s → ∀ r s', M.Exec w op s r s' → G s s' ∧ ∀ s'', R s' s'' → ends Q E r s'') :
    M.Triple R G w P (Prog.perform op) Q E := by
  intro s holds r s' ran
  refine ⟨(called s holds r s' ran).1, fun s'' env => ?_⟩
  have ended := (called s holds r s' ran).2 s'' env
  cases r with
  | ok b => exact ended
  | error e => exact ended

theorem Guarded.runs {Q : Except ε α → σ → Prop} (reflexive : ∀ s, R s s)
    (guarded : M.Guarded R G w p Q s) (runs : M.Runs w p s out s') : Q out s' := by
  induction runs with
  | ret a s => exact guarded
  | raise e s => exact guarded
  | call ran _ ih => exact ih ((guarded _ _ ran).2 _ (reflexive _))

end Machine
