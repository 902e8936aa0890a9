import Mathlib.Data.List.Basic

/-! # Automata and their runs

An automaton takes one action at a time, when it can. A run is given by the list of its actions; an
action that cannot be taken ends it. What holds of the first state and is kept by every step holds
of every state that a run visits; when the steps keep it only under a condition on the action and
the state it is taken in, it holds as long as the steps taken meet that condition.
-/

/-- The state that an action leads to, or `none` when it cannot be taken. -/
structure Automaton (σ α : Type*) where
  step : σ → α → Option σ

namespace Automaton

variable {σ α : Type*}

/-- The states of a run, the first one included. -/
def visited (M : Automaton σ α) : List α → σ → List σ
  | [], s => [s]
  | a :: rest, s =>
      s :: match M.step s a with
        | none => []
        | some next => M.visited rest next

/-- The actions of a run, each with the state it is taken in. -/
def taken (M : Automaton σ α) : List α → σ → List (σ × α)
  | [], _ => []
  | a :: rest, s =>
      match M.step s a with
      | none => []
      | some next => (s, a) :: M.taken rest next

theorem mem_visited_self (M : Automaton σ α) (actions : List α) (s : σ) :
    s ∈ M.visited actions s := by
  cases actions with
  | nil => exact List.mem_singleton.mpr rfl
  | cons a rest => exact List.mem_cons_self

variable {M : Automaton σ α} {s : σ} {Inv : σ → Prop} {Cond : σ → α → Prop} {actions : List α}

/-- What a run visits after its first step. -/
theorem mem_visited_cons {a : α} {rest : List α} {next state : σ} (stepped : M.step s a = some next)
    (later : state ∈ M.visited rest next) : state ∈ M.visited (a :: rest) s := by
  simp only [visited, stepped]
  exact List.mem_cons_of_mem s later

/-- The rule of invariants under a condition on the steps. -/
theorem visited_of_taken (step : ∀ s a next, Inv s → Cond s a → M.step s a = some next → Inv next)
    (holds : Inv s) (met : ∀ turn ∈ M.taken actions s, Cond turn.1 turn.2) :
    ∀ state ∈ M.visited actions s, Inv state := by
  induction actions generalizing s with
  | nil =>
    intro state reached
    rw [List.mem_singleton.mp reached]
    exact holds
  | cons a rest ih =>
    intro state reached
    simp only [visited, taken] at reached met
    rcases List.mem_cons.mp reached with rfl | later
    · exact holds
    · cases stepped : M.step s a with
      | none => simp [stepped] at later
      | some next =>
        simp only [stepped] at later met
        have first := met (s, a) List.mem_cons_self
        have kept := step s a next holds first stepped
        exact ih kept (fun turn more => met turn (List.mem_cons_of_mem _ more)) state later

/-- The rule of invariants. -/
theorem visited_of_step (step : ∀ s a next, Inv s → M.step s a = some next → Inv next)
    (holds : Inv s) : ∀ state ∈ M.visited actions s, Inv state := by
  have unconditional : ∀ s a next, Inv s → True → M.step s a = some next → Inv next :=
    fun s a next inv _ => step s a next inv
  exact visited_of_taken unconditional holds fun _ _ => trivial

variable {turn : σ × α} {Good : σ → Prop} {R : σ → σ → Prop}

/-- The steps of a run are taken in states it visits. -/
theorem visited_of_mem_taken (made : turn ∈ M.taken actions s) : turn.1 ∈ M.visited actions s := by
  induction actions generalizing s with
  | nil => exact absurd made List.not_mem_nil
  | cons a rest ih =>
    simp only [visited, taken] at made ⊢
    cases stepped : M.step s a with
    | none => simp [stepped] at made
    | some next =>
      simp only [stepped] at made ⊢
      rcases List.mem_cons.mp made with rfl | later
      · exact List.mem_cons_self
      · exact List.mem_cons_of_mem _ (ih later)

theorem mem_of_mem_taken (made : turn ∈ M.taken actions s) : turn.2 ∈ actions := by
  induction actions generalizing s with
  | nil => exact absurd made List.not_mem_nil
  | cons a rest ih =>
    simp only [taken] at made
    split at made
    next => exact absurd made List.not_mem_nil
    next =>
      rcases List.mem_cons.mp made with rfl | later
      · exact List.mem_cons_self
      · exact List.mem_cons_of_mem _ (ih later)

/-- When a step that meets `Side` keeps `Good` exactly under `Cond`, and all steps of a run meet
`Side`, the states of the run are all good exactly when its steps all meet the condition. -/
theorem visited_iff_taken_of (Inv : σ → Prop) (Side : σ → α → Prop)
    (kept : ∀ s a next, Inv s → Side s a → M.step s a = some next → Inv next)
    (exactly : ∀ s a next, Inv s → Side s a → Good s → M.step s a = some next →
      (Good next ↔ Cond s a)) (holds : Inv s) (good : Good s)
    (side : ∀ turn ∈ M.taken actions s, Side turn.1 turn.2) :
    (∀ state ∈ M.visited actions s, Good state) ↔
      ∀ turn ∈ M.taken actions s, Cond turn.1 turn.2 := by
  induction actions generalizing s with
  | nil => simp [visited, taken, good]
  | cons a rest ih =>
    simp only [visited, taken] at side ⊢
    cases stepped : M.step s a with
    | none => simp [good]
    | some next =>
      simp only [stepped, List.forall_mem_cons] at side ⊢
      have condition := exactly s a next holds side.1 good stepped
      have inner (next_good : Good next) :=
        ih (s := next) (kept s a next holds side.1 stepped) next_good side.2
      constructor
      · rintro ⟨_, later⟩
        have next_good := later next (M.mem_visited_self rest next)
        exact ⟨condition.mp next_good, (inner next_good).mp later⟩
      · rintro ⟨first, later⟩
        exact ⟨good, (inner (condition.mpr first)).mpr later⟩

/-- When a step keeps `Good` exactly under `Cond`, the states of a run are all good exactly when its
steps all meet the condition. -/
theorem visited_iff_taken (kept : ∀ s a next, Inv s → M.step s a = some next → Inv next)
    (exactly : ∀ s a next, Inv s → Good s → M.step s a = some next → (Good next ↔ Cond s a))
    (holds : Inv s) (good : Good s) :
    (∀ state ∈ M.visited actions s, Good state) ↔
      ∀ turn ∈ M.taken actions s, Cond turn.1 turn.2 :=
  visited_iff_taken_of Inv (fun _ _ => True) (fun s a next inv _ => kept s a next inv)
    (fun s a next inv _ => exactly s a next inv) holds good fun _ _ => trivial

/-- The rule of relations between the earlier and the later states of a run: a transitive one holds
of all of them exactly when each step meets the condition under which it relates its two ends. -/
theorem pairwise_visited_iff (trans : ∀ a b c, R a b → R b c → R a c)
    (kept : ∀ s a next, Inv s → M.step s a = some next → Inv next)
    (exactly : ∀ s a next, Inv s → M.step s a = some next → (R s next ↔ Cond s a)) (holds : Inv s) :
    (M.visited actions s).Pairwise R ↔ ∀ turn ∈ M.taken actions s, Cond turn.1 turn.2 := by
  induction actions generalizing s with
  | nil => simp [visited, taken]
  | cons a rest ih =>
    cases stepped : M.step s a with
    | none => simp [visited, taken, stepped]
    | some next =>
      have inner := ih (s := next) (kept s a next holds stepped)
      have condition := exactly s a next holds stepped
      simp only [visited, taken, stepped, List.pairwise_cons, List.forall_mem_cons]
      constructor
      · rintro ⟨first, later⟩
        exact ⟨condition.mp (first next (M.mem_visited_self rest next)), inner.mp later⟩
      · rintro ⟨first, met⟩
        have later := inner.mpr met
        refine ⟨fun state reached => ?_, later⟩
        -- every state of the rest of the run is the next one, or comes after it
        have step := condition.mpr first
        cases rest with
        | nil =>
          rw [List.mem_singleton.mp reached]
          exact step
        | cons b more =>
          simp only [visited] at reached later
          rcases List.mem_cons.mp reached with rfl | after
          · exact step
          · exact trans _ _ _ step ((List.pairwise_cons.mp later).1 state after)

/-- A transitive relation that every step keeps holds between all states of a run. -/
theorem pairwise_visited (trans : ∀ a b c, R a b → R b c → R a c)
    (step : ∀ s a next, M.step s a = some next → R s next) (actions : List α) (s : σ) :
    (M.visited actions s).Pairwise R := by
  have exactly : ∀ s a next, True → M.step s a = some next → (R s next ↔ True) :=
    fun s a next _ stepped => iff_of_true (step s a next stepped) trivial
  exact (pairwise_visited_iff trans (fun _ _ _ _ _ => trivial) exactly trivial).mpr
    fun _ _ => trivial

end Automaton
