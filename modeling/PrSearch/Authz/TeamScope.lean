import Mathlib.Data.List.Dedup
import Mathlib.Data.List.Sort
import PrSearch.Lib.Automaton

/-! # The team scope of a repository

`syncRepositoryTeamScope` asks GitHub which teams may see a repository, stores the answer in the
repository's row and, if the row has changed, in the documents of the repository. The calls on one
repository take turns under a lock. A call may fail before it writes anything; its index step may
reach some of the documents only, and throw or not; after it has thrown the row is set back, unless
that fails too; the process may end at any point after the row was written.

What the row says is what decides whether the documents are written. When the two differ, an answer
that the row already has leaves the documents as they are, however many calls return it.
-/
namespace PrSearch.Authz.TeamScope

/-- `repository.allowed_team_ids`, and that field of the documents. -/
structure Scope (D : Type) where
  row : List Int
  docs : D → List Int

structure TeamSyncOutcome where
  changed : Bool
  teamIds : List Int
  documentsRefreshed : Nat
  rolledBack : Bool
  deferred : Bool
  deriving DecidableEq, Repr

/-- How the index step goes, and the documents it reaches. -/
inductive IndexStep (D : Type)
  | returns (written : D → Bool) (total : Nat)
  /-- The step throws; `restored`: the row is set back. -/
  | throws (written : D → Bool) (restored : Bool)
  /-- The process ends before the step or during it. -/
  | crashes (written : D → Bool)

/-- How a call goes. -/
inductive Sync (D : Type)
  /-- The lock was not to be had in time. -/
  | deferred
  /-- GitHub or the database fails before the row is written. -/
  | fails
  | answered (teamIds : List Int) (index : IndexStep D)

variable {D : Type}

/-- `[...new Set(teamIds)].sort((a, b) => a - b)` -/
def normalize (teamIds : List Int) : List Int := teamIds.dedup.insertionSort (· ≤ ·)

/-- `IS DISTINCT FROM`: whether the row has changed, and what it is now. -/
def setAllowedTeams (teamIds : List Int) (s : Scope D) : Bool × Scope D :=
  (s.row ≠ normalize teamIds, { s with row := normalize teamIds })

def applyRepositoryTeams (teamIds : List Int) (written : D → Bool) (s : Scope D) : Scope D :=
  { s with docs := fun d => if written d then normalize teamIds else s.docs d }

/-- What a call leaves, and its outcome if it returns one. -/
def syncRepositoryTeamScope (sync : Sync D) (s : Scope D) : Scope D × Option TeamSyncOutcome :=
  match sync with
  | .deferred => (s, some ⟨false, [], 0, false, true⟩)
  | .fails => (s, none)
  | .answered teamIds index =>
      let previous := s.row
      let (changed, set) := setAllowedTeams teamIds s
      if changed then
        match index with
        | .returns written total =>
            (applyRepositoryTeams teamIds written set, some ⟨true, teamIds, total, false, false⟩)
        | .throws written true =>
            ((setAllowedTeams previous (applyRepositoryTeams teamIds written set)).2,
              some ⟨false, previous, 0, true, false⟩)
        | .throws written false => (applyRepositoryTeams teamIds written set, none)
        | .crashes written => (applyRepositoryTeams teamIds written set, none)
      else (set, some ⟨false, teamIds, 0, false, false⟩)

/-- The scope, and what GitHub answered in the last call, with the call's outcome. -/
structure World (D : Type) where
  scope : Scope D
  last : Option (List Int × TeamSyncOutcome)

def Sync.answer : Sync D → List Int
  | answered teamIds _ => teamIds
  | _ => []

namespace World

/-- The documents are projected with the scope of the row. -/
def initial (teamIds : List Int) : World D :=
  ⟨⟨normalize teamIds, fun _ => normalize teamIds⟩, none⟩

def after (s : World D) (sync : Sync D) : World D :=
  let called := syncRepositoryTeamScope sync s.scope
  ⟨called.1, called.2.map fun outcome => (sync.answer, outcome)⟩

def step (s : World D) (sync : Sync D) : Option (World D) := some (s.after sync)

end World

def syncing (D : Type) : Automaton (World D) (Sync D) := ⟨World.step⟩

/-! ### What is promised -/

namespace World

/-- A call that was neither deferred nor rolled back has left every document with its answer. -/
def ReflectsAnswer (s : World D) : Prop :=
  ∀ answer outcome, s.last = some (answer, outcome) →
    outcome.rolledBack = false → outcome.deferred = false → ∀ d, s.scope.docs d = normalize answer

/-- When GitHub answers what the row has, the documents have it too; an index step that returns has
reached every document that had something else. -/
def Repaired (s : World D) : Sync D → Prop
  | .answered teamIds index =>
      if s.scope.row = normalize teamIds then ∀ d, s.scope.docs d = normalize teamIds
      else
        match index with
        | .returns written _ => ∀ d, written d = true ∨ s.scope.docs d = normalize teamIds
        | _ => True
  | _ => True

end World

/-- The index step reaches all documents, or it throws having reached none and the row is set
back. -/
def IndexStep.Clean : IndexStep D → Prop
  | returns written _ => ∀ d, written d = true
  | throws written restored => restored = true ∧ ∀ d, written d = false
  | crashes _ => False

def Sync.Clean : Sync D → Prop
  | answered _ index => index.Clean
  | _ => True

/-! ### One call -/

theorem normalize_normalize (teamIds : List Int) :
    normalize (normalize teamIds) = normalize teamIds := by
  have distinct : (normalize teamIds).Nodup :=
    (List.perm_insertionSort _ _).nodup_iff.mpr (List.nodup_dedup teamIds)
  have sorted : (normalize teamIds).Pairwise (· ≤ ·) := List.pairwise_insertionSort _ _
  rw [normalize, distinct.dedup, sorted.insertionSort_eq]

variable {teamIds : List Int} {index : IndexStep D} {s next : World D} {sync : Sync D}

theorem sync_unchanged {s : Scope D} (same : s.row = normalize teamIds) :
    syncRepositoryTeamScope (.answered teamIds index) s =
      (s, some ⟨false, teamIds, 0, false, false⟩) := by
  have kept : { s with row := normalize teamIds } = s := by rw [← same]
  simp [syncRepositoryTeamScope, setAllowedTeams, same, kept]

/-- With another answer than the row's, the index step is taken. -/
theorem sync_changed {s : Scope D} (other : s.row ≠ normalize teamIds) :
    syncRepositoryTeamScope (.answered teamIds index) s =
      match index with
      | .returns written total =>
          (applyRepositoryTeams teamIds written ⟨normalize teamIds, s.docs⟩,
            some ⟨true, teamIds, total, false, false⟩)
      | .throws written true =>
          ((setAllowedTeams s.row
              (applyRepositoryTeams teamIds written ⟨normalize teamIds, s.docs⟩)).2,
            some ⟨false, s.row, 0, true, false⟩)
      | .throws written false =>
          (applyRepositoryTeams teamIds written ⟨normalize teamIds, s.docs⟩, none)
      | .crashes written =>
          (applyRepositoryTeams teamIds written ⟨normalize teamIds, s.docs⟩, none) := by
  simp [syncRepositoryTeamScope, setAllowedTeams, other]

namespace World

/-- Whether a call leaves its answer in the documents is settled by what it finds. -/
theorem reflectsAnswer_step (stepped : s.step sync = some next) :
    next.ReflectsAnswer ↔ s.Repaired sync := by
  obtain rfl := Option.some.inj stepped
  cases sync with
  | deferred => simp [ReflectsAnswer, Repaired, after, syncRepositoryTeamScope]
  | fails => simp [ReflectsAnswer, Repaired, after, syncRepositoryTeamScope]
  | answered teamIds index =>
    by_cases same : s.scope.row = normalize teamIds
    · rw [after, sync_unchanged same]
      simp [ReflectsAnswer, Repaired, Sync.answer, same]
    · rw [after, sync_changed same]
      cases index with
      | returns written total =>
        simp only [ReflectsAnswer, Repaired, Sync.answer, same, if_false, Option.map_some,
          Option.some.injEq, Prod.mk.injEq, applyRepositoryTeams]
        constructor
        · intro reflects d
          have doc := reflects teamIds _ ⟨rfl, rfl⟩ rfl rfl d
          cases reached : written d with
          | true => exact .inl rfl
          | false =>
            rw [reached] at doc
            exact .inr doc
        · rintro reached answer outcome ⟨rfl, -⟩ - - d
          rcases reached d with now | before
          · simp [now]
          · simp [before]
      | throws written restored =>
        cases restored with
        | true => simp [ReflectsAnswer, Repaired, same]
        | false => simp [ReflectsAnswer, Repaired, same]
      | crashes written => simp [ReflectsAnswer, Repaired, same]

/-- The documents carry what the row says. -/
structure InStep (s : World D) : Prop where
  row : normalize s.scope.row = s.scope.row
  docs : ∀ d, s.scope.docs d = s.scope.row

theorem InStep.initial (teamIds : List Int) : (World.initial teamIds : World D).InStep :=
  ⟨normalize_normalize teamIds, fun _ => rfl⟩

theorem InStep.repaired (inStep : s.InStep) (clean : sync.Clean) : s.Repaired sync := by
  cases sync with
  | deferred => trivial
  | fails => trivial
  | answered teamIds index =>
    simp only [Repaired]
    split
    next same =>
      intro d
      rw [inStep.docs d, same]
    · cases index with
      | returns written total => exact fun d => .inl (clean d)
      | throws written restored => trivial
      | crashes written => trivial

/-- A clean call keeps the documents with the row, also when it is rolled back. -/
theorem InStep.step (inStep : s.InStep) (clean : sync.Clean) (stepped : s.step sync = some next) :
    next.InStep := by
  obtain rfl := Option.some.inj stepped
  cases sync with
  | deferred => exact ⟨inStep.row, inStep.docs⟩
  | fails => exact ⟨inStep.row, inStep.docs⟩
  | answered teamIds index =>
    by_cases same : s.scope.row = normalize teamIds
    · rw [after, sync_unchanged same]
      exact ⟨inStep.row, inStep.docs⟩
    · rw [after, sync_changed same]
      cases index with
      | returns written total =>
        refine ⟨normalize_normalize teamIds, fun d => ?_⟩
        have reached : written d = true := clean d
        simp [applyRepositoryTeams, reached]
      | throws written restored =>
        obtain ⟨rfl, untouched⟩ : restored = true ∧ ∀ d, written d = false := clean
        refine ⟨normalize_normalize s.scope.row, fun d => ?_⟩
        -- the documents kept what the row is set back to
        simp [setAllowedTeams, applyRepositoryTeams, untouched, inStep.row, inStep.docs]
      | crashes written => exact clean.elim

end World

/-- In every run, the calls leave their answers in the documents exactly when each of them finds the
documents repaired; and they do as long as every call is clean. -/
theorem team_scope_reflects_answer (teamIds : List Int) (syncs : List (Sync D)) :
    ((∀ s ∈ (syncing D).visited syncs (.initial teamIds), s.ReflectsAnswer) ↔
        ∀ turn ∈ (syncing D).taken syncs (.initial teamIds), turn.1.Repaired turn.2) ∧
      ((∀ turn ∈ (syncing D).taken syncs (.initial teamIds), turn.2.Clean) →
        ∀ s ∈ (syncing D).visited syncs (.initial teamIds), s.ReflectsAnswer) := by
  have fresh : (World.initial teamIds : World D).ReflectsAnswer := fun _ _ last => by cases last
  have exactly : (∀ s ∈ (syncing D).visited syncs (.initial teamIds), s.ReflectsAnswer) ↔
      ∀ turn ∈ (syncing D).taken syncs (.initial teamIds), turn.1.Repaired turn.2 := by
    have answered : ∀ s sync next, True → s.ReflectsAnswer → (syncing D).step s sync = some next →
        (next.ReflectsAnswer ↔ s.Repaired sync) :=
      fun _ _ _ _ _ stepped => World.reflectsAnswer_step stepped
    exact Automaton.visited_iff_taken (fun _ _ _ _ _ => trivial) answered trivial fresh
  refine ⟨exactly, fun clean => exactly.mpr ?_⟩
  have inStep : ∀ s ∈ (syncing D).visited syncs (.initial teamIds), s.InStep := by
    have step : ∀ s sync next, s.InStep → sync.Clean → (syncing D).step s sync = some next →
        next.InStep := fun _ _ _ kept isClean stepped => kept.step isClean stepped
    exact Automaton.visited_of_taken step (World.InStep.initial teamIds) clean
  intro turn made
  exact (inStep turn.1 (Automaton.visited_of_mem_taken made)).repaired (clean turn made)

/-- Team 2 loses its access; the process ends before the index step, and the next call finds the row
as it should be. -/
def interrupted : List (Sync Unit) :=
  [.answered [1] (.crashes fun _ => false), .answered [1] (.returns (fun _ => true) 1)]

theorem interrupted_leaves_revoked_team :
    ¬ ∀ syncs, ∀ s ∈ (syncing Unit).visited syncs (.initial [1, 2]), s.ReflectsAnswer := by
  intro promised
  have left : ∃ s ∈ (syncing Unit).visited interrupted (.initial [1, 2]),
      s.last = some ([1], ⟨false, [1], 0, false, false⟩) ∧ s.scope.docs () = [1, 2] := by
    decide
  obtain ⟨s, reached, last, doc⟩ := left
  have cleared := promised interrupted s reached [1] _ last rfl rfl ()
  rw [doc] at cleared
  exact absurd cleared (by decide)

end PrSearch.Authz.TeamScope
