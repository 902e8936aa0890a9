import PrSearch.Links.QueueRuns

/-! # What is not shown is queued

In every run whose steps keep what is shown, a commit whose links are not shown waits for a worker, or
has been given up as it is. Otherwise a commit can be forgotten: by a writer that changes its links and
asks for nothing, by a worker that comes back after its lease, and by one that parks what has been asked
for meanwhile.
-/
namespace PrSearch.Links

open Query (Text)
open PrSearch.Relation (Sha)
open Index.CommitLinks
open Rows

variable {W : Type} [DecidableEq W]

section Runs

variable {s next : World W}

/-- The step lemma. -/
theorem inv_step {action : Action W} (inv : Inv s) (keeps : Keeps s action)
    (stepped : s.step action = some next) : Inv next := by
  cases action <;> simp only [World.step] at stepped
  case change change =>
    obtain ⟨⟨tables, raised⟩, changed, rfl⟩ := Option.map_eq_some_iff.mp stepped
    exact inv_change inv (asks_change changed keeps)
  case createDocument sha =>
    split at stepped
    next none =>
      cases stepped
      exact inv_createDocument inv none
    next => cases stepped
  case reclaim expired =>
    cases stepped
    exact inv_reclaim inv expired
  case claim worker chosen =>
    split at stepped
    next idle =>
      cases stepped
      exact inv_claim inv idle chosen
    next => cases stepped
  case read worker =>
    split at stepped
    next at_ =>
      cases stepped
      exact inv_read inv at_
    next => cases stepped
  case get worker =>
    split at stepped
    next at_ =>
      cases stepped
      exact inv_get inv at_
    next => cases stepped
  case script worker lost =>
    split at stepped
    next lease canonical rest at_ =>
      cases stepped
      exact inv_script inv lost at_ (keeps lease canonical rest at_)
    next => cases stepped
  case fail worker reason =>
    split at stepped
    next at_ =>
      cases stepped
      exact inv_fail inv reason at_
    next at_ =>
      cases stepped
      exact inv_fail inv reason at_
    next => cases stepped
  case leave worker =>
    split at stepped
    next lease canonical answer rest at_ =>
      cases stepped
      exact inv_leave inv at_ (keeps lease canonical answer rest at_)
    next => cases stepped
  case crash worker =>
    cases stepped
    exact inv.goTo phaseOk_idle

/-- Nothing has been observed, and nothing is shown. -/
def startWorld (W : Type) (repositoryId : Int) (sequenceBranches : List Text)
    (seqEpoch : Text → Nat) (mergeSequence : MergeSequence) : World W where
  repositoryId := repositoryId
  tables := ⟨.empty, sequenceBranches, seqEpoch, mergeSequence⟩
  states := .empty
  documents := fun _ => none
  phase := fun _ => .idle
  claims := 0
  givenUp := fun _ => none

theorem inv_startWorld {repositoryId : Int} {sequenceBranches : List Text}
    {seqEpoch : Text → Nat} {mergeSequence : MergeSequence} :
    Inv (startWorld W repositoryId sequenceBranches seqEpoch mergeSequence) where
  commits sha := by
    refine ⟨fun row found => (nomatch found), fun _ => ⟨fun prNumber evidence linked => ?_, rfl⟩,
      fun _ => rfl, fun g is => (nomatch is)⟩
    obtain ⟨row, inside, _⟩ := linked
    cases inside
  valid link inside := nomatch inside
  phases worker := phaseOk_idle

/-- What is not shown is left to some worker. -/
def Queued (s : World W) (sha : Sha) : Prop :=
  currentLinkView s.tables sha ≠ shownLinkView (s.documents sha) →
    ∃ row ∈ s.states.rows, row.commitSha = sha ∧ row.projectedGeneration < row.generation ∧
      (row.state = .ready ∨ row.state = .retry ∨ row.state = .leased)

/-- What is not shown is left to some worker, or has been given up as it is: there is a conflict, or it
has failed often enough, and nobody has asked for it since it was read. -/
def QueuedOrGivenUp (s : World W) (sha : Sha) : Prop :=
  currentLinkView s.tables sha ≠ shownLinkView (s.documents sha) →
    ∃ row ∈ s.states.rows, row.commitSha = sha ∧ row.projectedGeneration < row.generation ∧
      (row.state = .ready ∨ row.state = .retry ∨ row.state = .leased ∨
        (row.state = .parked ∧ s.givenUp sha = some row.generation ∧
          (maxRetries ≤ row.attemptCount ∨ row.lastReason = some generationConflict)))

omit [DecidableEq W] in
theorem Inv.queued (inv : Inv s) (sha : Sha) : QueuedOrGivenUp s sha := by
  intro differs
  have ok := inv.commits sha
  cases found : findCommitLinkState s.states sha with
  | none =>
    -- a commit without a row has no links, and its document has none
    obtain ⟨unlinked, without⟩ := ok.unlinked found
    have uncounted : ∀ prNumber evidence, ¬ Counts s.tables sha prNumber evidence :=
      fun prNumber evidence counted => unlinked prNumber evidence counted.1
    have none : listLinkedPullRequestNumbers s.tables sha = [] := by
      refine List.eq_nil_iff_forall_not_mem.mpr fun n inside => ?_
      obtain ⟨evidence, counted⟩ := mem_listLinkedPullRequestNumbers.mp inside
      exact uncounted n evidence counted
    have verified : verifiedLinks s.tables sha = true :=
      verifiedLinks_iff.mpr fun n evidence counted => absurd counted (uncounted n evidence)
    refine absurd ?_ differs
    rw [ok.plain without, currentLinkView, none, verified]
    rfl
  | some row =>
    have rowOk := ok.row row found
    have own := commitSha_of_find found
    have waits : row.projectedGeneration < row.generation := by
      refine lt_of_le_of_ne rowOk.within fun same => differs ?_
      have shown := rowOk.shown same
      rw [own] at shown
      rcases shown with is | ⟨without, none⟩
      · exact ((ok.document _ is row found).2 rfl).symm
      · rw [none, ok.plain without]
    refine ⟨row, List.mem_of_find?_eq_some found, own, waits, ?_⟩
    have notDone : row.state ≠ .done := fun done => Int.ne_of_lt waits (rowOk.done.mp done)
    cases state : row.state with
    | ready => exact .inl rfl
    | retry => exact .inr (.inl rfl)
    | leased => exact .inr (.inr (.inl rfl))
    | done => exact absurd state notDone
    | parked =>
      obtain ⟨givenUp, why⟩ := rowOk.parked state
      rw [own] at givenUp
      exact .inr (.inr (.inr ⟨rfl, givenUp, why⟩))

end Runs

/-! ### Runs that keep it, and runs that do not -/

section Examples

instance (s : World W) (sha : Sha) : Decidable (Queued s sha) :=
  inferInstanceAs (Decidable (_ → _))

private def commit : Sha := ⟨List.replicate 40 'a', by decide, by decide⟩

private def listing (prNumber : Nat) (version : Int) (shas : List Text) : Action Bool :=
  .change (.adopt ⟨prNumber, version, shas, none, true, true, none⟩)

private def begins : World Bool := startWorld Bool 1 ["dev".toList] (fun _ => 1) .empty

private def landing (baseBranch : String) : Action Bool :=
  .change (.assign baseBranch.toList [⟨1, commit.text, none⟩])

private def shown : List (Action Bool) :=
  [.claim true [commit], .read true, .get true, .script true none, .leave true]

private def failed : List (Action Bool) :=
  [.claim true [commit], .read true, .fail true "timeout".toList, .leave true]

/-- Some state of the run leaves the links of the commit to nobody. -/
private def Forgets (actions : List (Action Bool)) : Prop :=
  ∃ s ∈ (linkQueue Bool).visited actions begins, ¬ Queued s commit

private instance (actions : List (Action Bool)) : Decidable (Forgets actions) :=
  inferInstanceAs (Decidable (∃ s ∈ _, _))

-- The first observation forgets no other commit, since there is none.
private theorem remembers_first (input : LinkObservationInput) :
    Remembers begins.tables (.adopt input) := by
  intro sha apart
  have unlinked : ∀ prNumber evidence, ¬ Linked begins.tables.store.links prNumber sha evidence := by
    rintro prNumber evidence ⟨row, inside, _⟩
    cases inside
  have after : verifiedLinks { begins.tables with
      store := (adoptLinkObservation begins.tables.store input).2 } sha = true := by
    refine verifiedLinks_iff.mpr fun prNumber evidence counted => ?_
    exact absurd ((linked_call_iff apart prNumber evidence).mp counted.1) (unlinked prNumber evidence)
  have before : verifiedLinks begins.tables sha = true :=
    verifiedLinks_iff.mpr fun prNumber evidence counted =>
      absurd counted.1 (unlinked prNumber evidence)
  rw [after, before]

/-- A list arrives, the commit gets its document and is looked at, and the worker stops. -/
private def claimed : List (Action Bool) :=
  [listing 7 1 [commit.text], .createDocument commit, .claim true [commit], .read true, .get true,
    .crash true]

end Examples

end PrSearch.Links
