import PrSearch.Links.Adoption

/-! # Observations in any order

What is stored of a pull request only becomes newer, a link goes only with the right to remove it, and
a call that does not adopt changes no link. So when the newest of some observations is complete and
has read the pull request, its links are what is left of them, in whatever order they arrive.
-/
namespace PrSearch.Links

open PrSearch.Relation (Sha)
open Rows

section Definitions

variable (prNumber : Nat) (store : LinkStore) (input : LinkObservationInput)

/-- What a call does at most. -/
structure SafeCall : Prop where
  forward : ∀ stored ∈ findLinkObservation store.observations prNumber,
    ∃ later ∈ findLinkObservation (adoptLinkObservation store input).2.observations prNumber,
      stored.observedVersion ≤ later.observedVersion
  source : ∀ sha, Linked store.links prNumber sha .source →
    ¬ Linked (adoptLinkObservation store input).2.links prNumber sha .source →
      input.commitsComplete = true ∧ sha ∉ input.sources ∧
        ∀ stored ∈ findLinkObservation store.observations prNumber,
          stored.observedVersion < input.observedVersion
  merge : ∀ sha, Linked store.links prNumber sha .merge →
    ¬ Linked (adoptLinkObservation store input).2.links prNumber sha .merge →
      input.pullRequestAuthoritative = true
  kept : (adoptLinkObservation store input).1.outcome ≠ .adopted →
    (adoptLinkObservation store input).2.links = store.links

/-- The links of the pull request are those of the observation, and they are verified. -/
structure Shows : Prop where
  source : ∀ sha, Linked store.links prNumber sha .source ↔ sha ∈ input.sources
  merge : ∀ sha, Linked store.links prNumber sha .merge ↔ input.merged = some sha
  stored : ∃ stored ∈ findLinkObservation store.observations prNumber,
    stored.observedVersion = input.observedVersion ∧ stored.verificationState = .verified

/-- The store after some calls. -/
def afterAll (start : LinkStore) (inputs : List LinkObservationInput) : LinkStore :=
  inputs.foldl (fun store input => (adoptLinkObservation store input).2) start

/-- All that has been stored of the pull request is older. -/
def OlderThan (version : Int) : Prop :=
  ∀ stored ∈ findLinkObservation store.observations prNumber, stored.observedVersion < version

end Definitions

variable {stored : LinkObservationRow} {version : Int} {greatest : LinkObservationInput}
  {inputs : List LinkObservationInput}

section Calls

variable {prNumber : Nat} {store : LinkStore} {input : LinkObservationInput}

variable {observations : Table LinkObservationRow.prNumber}

theorem find_put (row : LinkObservationRow) :
    findLinkObservation (observations.put row) row.prNumber = some row :=
  (observations.put row).keyed.find?_eq_some.mpr ⟨Table.mem_put.mpr (.inl rfl), rfl⟩

theorem prNumber_of_find (found : findLinkObservation observations prNumber = some stored) :
    stored.prNumber = prNumber := (observations.keyed.find?_eq_some.mp found).2

-- A conflict leaves the version as it is.
theorem find_conflicting
    (found : findLinkObservation store.observations input.prNumber = some stored) :
    ∃ later ∈ findLinkObservation (conflicting store input stored).2.observations input.prNumber,
      later.observedVersion = stored.observedVersion := by
  have own := prNumber_of_find found
  refine ⟨{ stored with
    verificationState := .conflict
    lastReason := some "same_version_different_set".toList }, ?_, rfl⟩
  rw [← own]
  exact find_put { stored with
    verificationState := .conflict
    lastReason := some "same_version_different_set".toList }

theorem find_adopted :
    findLinkObservation (adopted store input).2.observations input.prNumber =
      some (adoptedObservation store input) := find_put (adoptedObservation store input)

/-- A call is safe for its own pull request. -/
theorem safeCall (own : input.prNumber = prNumber) : SafeCall prNumber store input := by
  subst own
  have call := adoption_of_call store input
  refine ⟨fun stored found => ?_, fun sha linked gone => ?_, fun sha linked gone => ?_,
    fun notAdopted => ?_⟩
  · generalize adoptLinkObservation store input = result at call ⊢
    cases call with
    | none _ _ _ => exact ⟨stored, found, Int.le_refl _⟩
    | conflict found' same =>
      obtain rfl := Option.some.inj (found.symm.trans found')
      obtain ⟨later, is, version⟩ := find_conflicting found'
      exact ⟨later, is, Int.le_of_eq version.symm⟩
    | adopted newer =>
      exact ⟨_, find_adopted, Int.le_of_lt (newer stored found)⟩
  · generalize adoptLinkObservation store input = result at call gone
    cases call with
    | none _ _ _ => exact absurd linked gone
    | conflict _ _ => exact absurd linked gone
    | adopted newer =>
      have lost := mt linked_adoptedLinks.mpr gone
      simp only [if_true, not_or, not_and, Bool.not_eq_false] at lost
      exact ⟨lost.2 linked, lost.1, newer⟩
  · generalize adoptLinkObservation store input = result at call gone
    cases call with
    | none _ _ _ => exact absurd linked gone
    | conflict _ _ => exact absurd linked gone
    | adopted newer =>
      have lost := mt linked_adoptedLinks.mpr gone
      simp only [if_true, not_or, not_and, Bool.not_eq_false] at lost
      exact lost.2 linked
  · generalize adoptLinkObservation store input = result at call notAdopted ⊢
    cases call with
    | none _ _ _ => rfl
    | conflict _ _ => rfl
    | adopted newer => exact absurd rfl notAdopted

/-! ### The newest observation -/

theorem OlderThan.call (own : input.prNumber = prNumber) (older : OlderThan prNumber store version)
    (less : input.observedVersion < version) :
    OlderThan prNumber (adoptLinkObservation store input).2 version := by
  subst own
  have call := adoption_of_call store input
  generalize adoptLinkObservation store input = result at call ⊢
  intro stored found
  cases call with
  | none _ _ _ => exact older stored found
  | conflict found' same =>
    obtain ⟨later, is, version⟩ := find_conflicting found'
    obtain rfl := Option.some.inj (found.symm.trans is)
    rw [version]
    exact older _ found'
  | adopted newer =>
    obtain rfl := Option.some.inj (find_adopted.symm.trans found)
    exact less

/-- The newest observation is adopted when it arrives, and then the links are its own. -/
theorem shows_call (own : input.prNumber = prNumber) (complete : input.commitsComplete = true)
    (read : input.pullRequestAuthoritative = true)
    (older : OlderThan prNumber store input.observedVersion) :
    Shows prNumber (adoptLinkObservation store input).2 input := by
  subst own
  have call := adoption_of_call store input
  generalize adoptLinkObservation store input = result at call ⊢
  cases call with
  | none found stored _ => exact absurd (older _ found) (Int.not_lt.mpr stored)
  | conflict found same => exact absurd same (Int.ne_of_lt (older _ found))
  | adopted _ =>
    refine ⟨fun sha => ?_, fun sha => ?_, _, find_adopted, rfl, ?_⟩
    · refine linked_adoptedLinks.trans ?_
      simp [complete]
    · refine linked_adoptedLinks.trans ?_
      simp [read]
    · simp [adoptedObservation, adoptedState, complete]

/-- What is older does not change them. -/
theorem Shows.call (own : input.prNumber = prNumber) (shows_ : Shows prNumber store greatest)
    (less : input.observedVersion < greatest.observedVersion) :
    Shows prNumber (adoptLinkObservation store input).2 greatest := by
  subst own
  obtain ⟨stored, found, version, _⟩ := shows_.stored
  have call := adoption_of_call store input
  generalize adoptLinkObservation store input = result at call ⊢
  cases call with
  | none _ _ _ => exact ⟨shows_.source, shows_.merge, shows_.stored⟩
  | conflict found' same =>
    obtain rfl := Option.some.inj (Option.mem_def.mp found ▸ found')
    omega
  | adopted newer =>
    have := newer stored found
    omega

theorem OlderThan.afterAll (own : ∀ input ∈ inputs, input.prNumber = prNumber)
    (older : OlderThan prNumber store version)
    (less : ∀ input ∈ inputs, input.observedVersion < version) :
    OlderThan prNumber (afterAll store inputs) version := by
  induction inputs generalizing store with
  | nil => exact older
  | cons input rest ih =>
    rw [List.forall_mem_cons] at own less
    exact ih own.2 (older.call own.1 less.1) less.2

theorem Shows.afterAll (own : ∀ input ∈ inputs, input.prNumber = prNumber)
    (shows_ : Shows prNumber store greatest)
    (less : ∀ input ∈ inputs, input.observedVersion < greatest.observedVersion) :
    Shows prNumber (afterAll store inputs) greatest := by
  induction inputs generalizing store with
  | nil => exact shows_
  | cons input rest ih =>
    rw [List.forall_mem_cons] at own less
    exact ih own.2 (shows_.call own.1 less.1) less.2

/-- Whatever the calls for a pull request are, each is safe. And when their versions are distinct and
the newest observation is complete and has read the pull request, they end with its links. -/
theorem adoption_safe_and_order_free (prNumber : Nat) (start : LinkStore)
    (inputs : List LinkObservationInput) (own : ∀ input ∈ inputs, input.prNumber = prNumber) :
    (∀ turn ∈ adoptions.taken inputs start, SafeCall prNumber turn.1 turn.2) ∧
      (findLinkObservation start.observations prNumber = none →
        (inputs.map LinkObservationInput.observedVersion).Nodup →
          ∀ greatest ∈ inputs, (∀ other ∈ inputs,
            other.observedVersion ≤ greatest.observedVersion) →
              greatest.commitsComplete = true → greatest.pullRequestAuthoritative = true →
                ∀ arrivals, arrivals.Perm inputs →
                  Shows prNumber (afterAll start arrivals) greatest) := by
  constructor
  · intro turn taken
    exact safeCall (own _ (Automaton.mem_of_mem_taken taken))
  · intro none distinct greatest inside newest complete read arrivals perm
    obtain ⟨before, after, rfl⟩ := List.mem_iff_append.mp (perm.mem_iff.mpr inside)
    have own' : ∀ input ∈ before ++ greatest :: after, input.prNumber = prNumber :=
      fun input member => own input (perm.mem_iff.mp member)
    have distinct' := (perm.map LinkObservationInput.observedVersion).nodup_iff.mpr distinct
    -- the others are older, since no two versions are the same
    have older : ∀ input, input ∈ before ∨ input ∈ after →
        input.observedVersion < greatest.observedVersion := by
      intro input which
      have member : input ∈ before ++ greatest :: after := by
        rcases which with early | late
        · exact List.mem_append_left _ early
        · exact List.mem_append_right _ (List.mem_cons_of_mem _ late)
      refine lt_of_le_of_ne (newest input (perm.mem_iff.mp member)) fun same => ?_
      rw [List.map_append, List.map_cons, List.nodup_append, List.nodup_cons] at distinct'
      obtain ⟨_, ⟨late_ne, _⟩, early_ne⟩ := distinct'
      rcases which with early | late
      · exact early_ne _ (List.mem_map_of_mem early) _ List.mem_cons_self same
      · exact late_ne (same ▸ List.mem_map_of_mem late)
    have first : OlderThan prNumber (afterAll start before) greatest.observedVersion := by
      refine OlderThan.afterAll (fun input member => ?_) ?_ fun input member => older input (.inl member)
      · exact own' input (List.mem_append_left _ member)
      · intro stored found
        rw [none] at found
        cases found
    have then_ := shows_call (own' greatest (by simp)) complete read first
    have last := then_.afterAll (fun input member => own' input (by simp [member]))
      fun input member => older input (.inr member)
    rw [Links.afterAll, List.foldl_append, List.foldl_cons]
    exact last

end Calls

section Example

private def listed (version : Int) (digit : Char) : LinkObservationInput :=
  ⟨7, version, [List.replicate 40 digit], none, true, true, none⟩

theorem adoption_safe_and_order_free_two :
    (∀ turn ∈ adoptions.taken [listed 2 'b', listed 1 'a'] .empty, SafeCall 7 turn.1 turn.2) ∧
      Shows 7 (afterAll .empty [listed 1 'a', listed 2 'b']) (listed 2 'b') := by
  have both := adoption_safe_and_order_free 7 .empty [listed 2 'b', listed 1 'a'] (by decide)
  exact ⟨both.1, both.2 rfl (by decide) (listed 2 'b') (by decide) (by decide) rfl rfl
    [listed 1 'a', listed 2 'b'] (List.Perm.swap _ _ _)⟩

end Example

end PrSearch.Links
