import PrSearch.Links.Arrival

/-! # Collecting a pull request again

A pull request whose observation is not verified is listed until a newer observation of it is adopted
that is complete. An observation of the stored version changes no link and verifies nothing: it is
either the same or a conflict. What is collected again is therefore stamped with the present time.
-/
namespace PrSearch.Links

open PrSearch.Relation (Sha)
open Rows

/-! ### The list -/

/-- `ORDER BY pr_number ASC` -/
def byPrNumber (left right : LinkObservationRow) : Prop := left.prNumber ≤ right.prNumber

instance : DecidableRel byPrNumber := fun left right => Nat.decLe left.prNumber right.prNumber

def listPullRequestsNeedingRefetch (store : LinkStore) (afterPrNumber limit : Nat) :
    List LinkObservationRow :=
  select byPrNumber store.observations.rows
    (fun row => afterPrNumber < row.prNumber && row.verificationState ≠ .verified) limit

/-- Some page of the list has the pull request. -/
def NeedsRefetch (store : LinkStore) (prNumber : Nat) : Prop :=
  ∃ afterPrNumber limit, prNumber ∈
    (listPullRequestsNeedingRefetch store afterPrNumber limit).map LinkObservationRow.prNumber

section Recollection

variable {store : LinkStore} {input : LinkObservationInput} {prNumber : Nat}

theorem findLinkObservation_eq_some {observations : Table LinkObservationRow.prNumber}
    {stored : LinkObservationRow} :
    findLinkObservation observations prNumber = some stored ↔
      stored ∈ observations.rows ∧ stored.prNumber = prNumber :=
  observations.keyed.find?_eq_some

/-- What is listed is stored and not verified. -/
theorem NeedsRefetch.stored (needs : NeedsRefetch store prNumber) :
    ∃ stored, findLinkObservation store.observations prNumber = some stored ∧
      stored.verificationState ≠ .verified := by
  obtain ⟨afterPrNumber, limit, inside⟩ := needs
  obtain ⟨stored, listed, own⟩ := List.mem_map.mp inside
  obtain ⟨member, wanted⟩ := of_mem_select listed
  refine ⟨stored, findLinkObservation_eq_some.mpr ⟨member, own⟩, ?_⟩
  simp only [Bool.and_eq_true, decide_eq_true_eq] at wanted
  exact wanted.2

-- The list begins after the number zero, which no pull request has.
theorem needsRefetch_of_stored (positive : 0 < prNumber) {stored : LinkObservationRow}
    (found : findLinkObservation store.observations prNumber = some stored)
    (open_ : stored.verificationState ≠ .verified) : NeedsRefetch store prNumber := by
  obtain ⟨member, rfl⟩ := findLinkObservation_eq_some.mp found
  refine ⟨0, store.observations.rows.length, List.mem_map_of_mem ?_⟩
  refine (mem_select (List.length_filter_le _ _)).mpr ⟨member, ?_⟩
  simp [positive, open_]

/-! ### The sets -/

/-- The links of the pull request are those of the observation. -/
def SameSets (store : LinkStore) (input : LinkObservationInput) : Prop :=
  (∀ sha, Linked store.links input.prNumber sha .source ↔ sha ∈ input.sources) ∧
    ∀ sha, Linked store.links input.prNumber sha .merge ↔ input.merged = some sha

theorem nodup_currentLinks (links : LinkTable) (prNumber : Nat) (evidence : LinkEvidence) :
    (currentLinks links prNumber evidence).Nodup := by
  have distinct : (links.rows.filter fun row =>
      row.prNumber = prNumber && row.evidence = evidence).Nodup :=
    (List.Nodup.of_map PullRequestCommitLinkRow.key links.keyed).filter _
  refine distinct.map_on fun left hl right hr same => ?_
  obtain ⟨leftInside, leftOwn⟩ := List.mem_filter.mp hl
  obtain ⟨rightInside, rightOwn⟩ := List.mem_filter.mp hr
  simp only [Bool.and_eq_true, decide_eq_true_eq] at leftOwn rightOwn
  -- one pull request, one evidence and one commit make one key
  refine links.keyed.eq leftInside rightInside ?_
  simp [PullRequestCommitLinkRow.key, leftOwn, rightOwn, same]

-- Lists without repetitions of one length, one inside the other, have the same items.
theorem mem_iff_of_length {α : Type*} {xs ys : List α} (distinct : ys.Nodup)
    (length : xs.length = ys.length) (inside : ∀ y ∈ ys, y ∈ xs) (x : α) : x ∈ xs ↔ x ∈ ys :=
  ((List.subperm_of_subset distinct inside).perm_of_length_le length.le).mem_iff.symm

theorem length_eq_of_mem_iff {α : Type*} {xs ys : List α} (hx : xs.Nodup) (hy : ys.Nodup)
    (same : ∀ x, x ∈ xs ↔ x ∈ ys) : xs.length = ys.length :=
  ((List.perm_ext_iff_of_nodup hx hy).mpr same).length_eq

theorem sameSource_iff :
    (currentLinks store.links input.prNumber .source).length = input.sources.length ∧
        (∀ sha ∈ input.sources, sha ∈ currentLinks store.links input.prNumber .source) ↔
      ∀ sha, Linked store.links input.prNumber sha .source ↔ sha ∈ input.sources := by
  simp only [← mem_currentLinks]
  constructor
  · rintro ⟨length, inside⟩
    exact mem_iff_of_length (nodup_sources input) length inside
  · intro same
    exact ⟨length_eq_of_mem_iff (nodup_currentLinks _ _ _) (nodup_sources input) same,
      fun sha listed => (same sha).mpr listed⟩

theorem sameMerge_iff :
    (match input.merged with
      | none => (currentLinks store.links input.prNumber .merge).length = 0
      | some sha => (currentLinks store.links input.prNumber .merge).length = 1 ∧
          sha ∈ currentLinks store.links input.prNumber .merge) ↔
      ∀ sha, Linked store.links input.prNumber sha .merge ↔ input.merged = some sha := by
  simp only [← mem_currentLinks]
  cases input.merged with
  | none => simp [List.eq_nil_iff_forall_not_mem]
  | some merge =>
    constructor
    · rintro ⟨length, inside⟩ sha
      obtain ⟨only, is⟩ := List.length_eq_one_iff.mp length
      rw [is, List.mem_singleton] at inside ⊢
      rw [inside, Option.some.injEq, eq_comm]
    · intro same
      have alone : ∀ sha, sha ∈ currentLinks store.links input.prNumber .merge ↔ sha ∈ [merge] := by
        intro sha
        rw [same, Option.some.injEq, List.mem_singleton, eq_comm]
      exact ⟨length_eq_of_mem_iff (nodup_currentLinks _ _ _) (List.nodup_singleton _) alone,
        (same merge).mpr rfl⟩

theorem sameLinks_iff : sameLinks store input = true ↔ SameSets store input := by
  rw [SameSets, ← sameSource_iff, ← sameMerge_iff]
  unfold sameLinks
  cases input.merged <;> simp

/-! ### Progress -/

theorem adopt_newer (older : OlderThan input.prNumber store input.observedVersion) :
    adoptLinkObservation store input = adopted store input := by
  unfold adoptLinkObservation
  cases found : findLinkObservation store.observations input.prNumber with
  | none => rfl
  | some stored =>
    have less := older stored found
    simp only
    rw [if_neg (by omega), if_neg (by omega)]

theorem adopt_same {stored : LinkObservationRow}
    (found : findLinkObservation store.observations input.prNumber = some stored)
    (version : stored.observedVersion = input.observedVersion) :
    adoptLinkObservation store input =
      if sameLinks store input then unchanged store .idempotent stored.verificationState
      else conflicting store input stored := by
  unfold adoptLinkObservation
  rw [found]
  simp only
  rw [if_neg (by omega), if_pos version]

theorem find_conflict {stored : LinkObservationRow}
    (found : findLinkObservation store.observations input.prNumber = some stored) :
    ∃ later, findLinkObservation (conflicting store input stored).2.observations input.prNumber =
      some later ∧ later.verificationState = .conflict := by
  have own := prNumber_of_find found
  refine ⟨{ stored with
    verificationState := .conflict
    lastReason := some "same_version_different_set".toList }, ?_, rfl⟩
  rw [← own]
  exact find_put { stored with
    verificationState := .conflict
    lastReason := some "same_version_different_set".toList }

/-- A newer observation that is complete and has read the pull request is adopted: the links are its
own, they are verified, nothing is held back and the pull request is listed no longer. One of the
stored version changes no link, whatever was held back or added before: it is the same when its sets
are those of the links, and a conflict otherwise, and what was listed stays listed. -/
theorem recollection_verifies_newer (store : LinkStore) (input : LinkObservationInput)
    (complete : input.commitsComplete = true) (read : input.pullRequestAuthoritative = true) :
    (OlderThan input.prNumber store input.observedVersion →
      Shows input.prNumber (adoptLinkObservation store input).2 input ∧
      (adoptLinkObservation store input).1.outcome = .adopted ∧
      (adoptLinkObservation store input).1.withheld = [] ∧
      ¬ NeedsRefetch (adoptLinkObservation store input).2 input.prNumber) ∧
    ∀ stored, findLinkObservation store.observations input.prNumber = some stored →
      stored.observedVersion = input.observedVersion →
        (adoptLinkObservation store input).2.links = store.links ∧
        (SameSets store input →
          (adoptLinkObservation store input).1.outcome = .idempotent ∧
          findLinkObservation (adoptLinkObservation store input).2.observations input.prNumber =
            some stored) ∧
        (¬ SameSets store input →
          (adoptLinkObservation store input).1.outcome = .conflict ∧
          ∃ later, findLinkObservation (adoptLinkObservation store input).2.observations
            input.prNumber = some later ∧ later.verificationState = .conflict) ∧
        (0 < input.prNumber → stored.verificationState ≠ .verified →
          NeedsRefetch (adoptLinkObservation store input).2 input.prNumber) := by
  constructor
  · intro older
    have shows_ := shows_call rfl complete read older
    refine ⟨shows_, ?_, ?_, fun needs => ?_⟩
    · rw [adopt_newer older]
      rfl
    · rw [adopt_newer older]
      simp [adopted, complete]
    · obtain ⟨stored, found, open_⟩ := needs.stored
      obtain ⟨later, is, _, verified⟩ := shows_.stored
      obtain rfl := Option.some.inj (found.symm.trans is)
      exact open_ verified
  · intro stored found version
    rw [adopt_same found version]
    by_cases same : SameSets store input
    · rw [if_pos (sameLinks_iff.mpr same)]
      exact ⟨rfl, fun _ => ⟨rfl, found⟩, fun other => absurd same other,
        fun positive open_ => needsRefetch_of_stored positive found open_⟩
    · rw [if_neg (mt sameLinks_iff.mp same)]
      obtain ⟨later, is, conflict⟩ := find_conflict found
      refine ⟨rfl, fun is => absurd is same, fun _ => ⟨rfl, later, is, conflict⟩, fun positive _ => ?_⟩
      refine needsRefetch_of_stored positive is ?_
      rw [conflict]
      decide

/-- An observation of the pull request `7` with one commit -/
def observed (version : Int) (digit : Char) (complete : Bool) : LinkObservationInput where
  prNumber := 7
  observedVersion := version
  sourceShas := [List.replicate 40 digit]
  mergeSha := none
  commitsComplete := complete
  pullRequestAuthoritative := true

/-- What is stored after an observation that is not complete. -/
def heldBack : LinkStore := (adoptLinkObservation .empty (observed 1 'a' false)).2

theorem recollection_verifies_later :
    Shows 7 (adoptLinkObservation heldBack (observed 2 'b' true)).2 (observed 2 'b' true) := by
  have older : OlderThan 7 heldBack 2 := by
    intro stored found
    have version : (findLinkObservation heldBack.observations 7).map
        LinkObservationRow.observedVersion = some 1 := by decide
    rw [Option.mem_def.mp found] at version
    have is : stored.observedVersion = 1 := by simpa using version
    omega
  exact ((recollection_verifies_newer heldBack (observed 2 'b' true) rfl rfl).1 older).1

-- A complete observation of the version of the one that was not complete is a conflict, and the same
-- one is still to be collected again.
theorem recollection_same_version :
    (findLinkObservation heldBack.observations 7).map
        (fun stored => (stored.observedVersion, stored.verificationState)) =
      some (1, .pendingRefetch) ∧
    ¬ Shows 7 (adoptLinkObservation heldBack (observed 1 'b' true)).2 (observed 1 'b' true) ∧
    ¬ Shows 7 (adoptLinkObservation heldBack (observed 1 'a' true)).2 (observed 1 'a' true) := by
  refine ⟨by decide, fun shows_ => ?_, fun shows_ => ?_⟩
  · obtain ⟨later, found, _, verified⟩ := shows_.stored
    have conflict : (findLinkObservation (adoptLinkObservation heldBack
        (observed 1 'b' true)).2.observations 7).map LinkObservationRow.verificationState =
          some .conflict := by decide
    rw [Option.mem_def.mp found, Option.map_some, verified] at conflict
    exact absurd conflict (by decide)
  · obtain ⟨later, found, _, verified⟩ := shows_.stored
    have pending : (findLinkObservation (adoptLinkObservation heldBack
        (observed 1 'a' true)).2.observations 7).map LinkObservationRow.verificationState =
          some .pendingRefetch := by decide
    rw [Option.mem_def.mp found, Option.map_some, verified] at pending
    exact absurd pending (by decide)

end Recollection

end PrSearch.Links
