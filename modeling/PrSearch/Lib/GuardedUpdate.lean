import Mathlib.Logic.Function.Basic
import PrSearch.Lib.Automaton

/-! # Guarded updates of one document

Writers share one document. Each reads it first, and concludes from what it reads, or goes on to an
update that looks at the document again and changes it or leaves it as it is. Reads and updates
happen one at a time, but between the read and the update of one writer others take their turns, so
that it acts on what it read earlier.
-/

/-- What a writer with an item of work does. -/
structure GuardedUpdate (δ ι κ : Type*) where
  /-- What it concludes from its reading, or `none` when it goes on. -/
  read : ι → δ → Option κ
  /-- The document that it writes, or `none` when it leaves it as it is. -/
  update : ι → δ → Option δ
  /-- What it concludes after the update, told whether it wrote. -/
  settle : Bool → κ

namespace GuardedUpdate

/-- Where a writer is. -/
inductive Phase (κ : Type*)
  | idle
  | ready
  | done (outcome : κ)

/-- The document and where each writer is. -/
structure Shared (δ W κ : Type*) where
  document : δ
  phase : W → Phase κ

variable {δ ι κ W : Type*} [DecidableEq W]

/-- The turn of a writer. -/
def turn (G : GuardedUpdate δ ι κ) (items : W → ι) (s : Shared δ W κ) (w : W) :
    Option (Shared δ W κ) :=
  match s.phase w with
  | .idle =>
      let phase := (G.read (items w) s.document).elim .ready .done
      some { s with phase := Function.update s.phase w phase }
  | .ready =>
      match G.update (items w) s.document with
      | none => some { s with phase := Function.update s.phase w (.done (G.settle false)) }
      | some written => some ⟨written, Function.update s.phase w (.done (G.settle true))⟩
  | .done _ => none

/-- The interleavings of the writers, one for each list of their turns. -/
def automaton (G : GuardedUpdate δ ι κ) (items : W → ι) : Automaton (Shared δ W κ) W :=
  ⟨G.turn items⟩

/-- The document before anyone has looked at it. -/
def start (document : δ) : Shared δ W κ := ⟨document, fun _ => .idle⟩

/-- The turn of the writer writes this document. -/
def Writes (G : GuardedUpdate δ ι κ) (items : W → ι) (s : Shared δ W κ) (w : W) (written : δ) :
    Prop :=
  s.phase w = .ready ∧ G.update (items w) s.document = some written

variable {G : GuardedUpdate δ ι κ} {items : W → ι} {s next : Shared δ W κ} {w : W}

/-- A turn writes, or it leaves the document as it is. -/
theorem document_turn (turn : G.turn items s w = some next) :
    G.Writes items s w next.document ∨
      (∀ written, ¬ G.Writes items s w written) ∧ next.document = s.document := by
  unfold GuardedUpdate.turn at turn
  split at turn
  next idle =>
    cases turn
    refine .inr ⟨?_, rfl⟩
    rintro written ⟨ready, -⟩
    rw [idle] at ready
    cases ready
  next ready =>
    split at turn
    next same =>
      cases turn
      refine .inr ⟨?_, rfl⟩
      rintro written ⟨-, changed⟩
      rw [same] at changed
      cases changed
    next written changed =>
      cases turn
      exact .inl ⟨ready, changed⟩
  next => cases turn

variable {R : δ → δ → Prop}

/-- The rule of guarded updates: a relation that is reflexive and transitive holds between the earlier
and the later documents of a run exactly when it holds across each of its writes. -/
theorem pairwise_iff_writes (refl : ∀ d, R d d) (trans : ∀ a b c, R a b → R b c → R a c)
    (Cond : ι → δ → Prop)
    (exactly : ∀ w d d', G.update (items w) d = some d' → (R d d' ↔ Cond (items w) d))
    (actions : List W) (s : Shared δ W κ) :
    (((G.automaton items).visited actions s).Pairwise fun earlier later =>
        R earlier.document later.document) ↔
      ∀ turn ∈ (G.automaton items).taken actions s, ∀ written,
        G.Writes items turn.1 turn.2 written → Cond (items turn.2) turn.1.document := by
  have step : ∀ s w next, True → (G.automaton items).step s w = some next →
      (R s.document next.document ↔
        ∀ written, G.Writes items s w written → Cond (items w) s.document) := by
    intro s w next _ turn
    rcases document_turn turn with writes | ⟨kept, same⟩
    · have across := exactly w s.document next.document writes.2
      constructor
      · exact fun related _ _ => across.mp related
      · exact fun met => across.mpr (met next.document writes)
    · rw [same]
      exact iff_of_true (refl s.document) fun written writes => absurd writes (kept written)
  have through : ∀ a b c : Shared δ W κ, R a.document b.document → R b.document c.document →
      R a.document c.document := fun a b c => trans a.document b.document c.document
  exact Automaton.pairwise_visited_iff through (fun _ _ _ _ _ => trivial) step trivial

/-- What every update keeps holds between the earlier and the later documents of every run. -/
theorem pairwise_of_update (refl : ∀ d, R d d) (trans : ∀ a b c, R a b → R b c → R a c)
    (update : ∀ w d d', G.update (items w) d = some d' → R d d') (actions : List W)
    (s : Shared δ W κ) :
    ((G.automaton items).visited actions s).Pairwise fun earlier later =>
      R earlier.document later.document := by
  have through : ∀ a b c : Shared δ W κ, R a.document b.document → R b.document c.document →
      R a.document c.document := fun a b c => trans a.document b.document c.document
  refine Automaton.pairwise_visited through ?_ actions s
  intro s w next turn
  rcases document_turn turn with writes | ⟨-, same⟩
  · exact update w _ _ writes.2
  · rw [same]
    exact refl s.document

/-- A document that no update changes is the document of every state. -/
theorem visited_of_no_update {document : δ}
    (none_ : ∀ w d, G.update (items w) document ≠ some d) (actions : List W)
    (s : Shared δ W κ) (same : s.document = document) :
    ∀ state ∈ (G.automaton items).visited actions s, state.document = document := by
  have step : ∀ s w next, s.document = document → (G.automaton items).step s w = some next →
      next.document = document := by
    intro s w next same turn
    rcases document_turn turn with writes | ⟨-, kept⟩
    · exact absurd (same ▸ writes.2) (none_ w next.document)
    · rw [kept, same]
  exact Automaton.visited_of_step step same

end GuardedUpdate
