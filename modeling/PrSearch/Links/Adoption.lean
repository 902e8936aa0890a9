import PrSearch.Lib.Automaton
import PrSearch.Relation.Snapshots

/-! # Adopting what was observed of a pull request

The commits of a pull request are kept as links, each with its evidence: a commit is in the list of
the pull request, or it is the commit that has merged it. An observation of the pull request is
adopted when it is newer than the stored one. It always adds links; it removes those of the list when
it is complete, and those of the merge when the pull request itself was read. An observation of the
same version that says something else changes no link and is marked as a conflict.
-/
namespace PrSearch.Links

open Query (Text)
open PrSearch.Relation (Sha isHex)
open Rows

inductive LinkEvidence
  | source
  | merge
  deriving DecidableEq, Repr

inductive LinkVerificationState
  | verified
  | unverified
  | conflict
  | pendingRefetch
  deriving DecidableEq, Repr

structure PullRequestCommitLinkRow where
  prNumber : Nat
  commitSha : Sha
  evidence : LinkEvidence
  observedVersion : Int
  deriving DecidableEq

namespace PullRequestCommitLinkRow

def key (row : PullRequestCommitLinkRow) : Nat × Sha × LinkEvidence :=
  (row.prNumber, row.commitSha, row.evidence)

end PullRequestCommitLinkRow

structure LinkObservationRow where
  prNumber : Nat
  observedVersion : Int
  commitsComplete : Bool
  fetchedCount : Nat
  verificationState : LinkVerificationState
  refetchAttempts : Nat
  lastReason : Option Text
  deriving DecidableEq

abbrev LinkTable := Table PullRequestCommitLinkRow.key

structure LinkStore where
  links : LinkTable
  observations : Table LinkObservationRow.prNumber

def LinkStore.empty : LinkStore := ⟨.empty, .empty⟩

structure LinkObservationInput where
  prNumber : Nat
  observedVersion : Int
  sourceShas : List Text
  mergeSha : Option Text
  commitsComplete : Bool
  pullRequestAuthoritative : Bool
  reason : Option Text := none
  deriving DecidableEq

inductive AdoptionOutcome
  | adopted
  | stale
  | idempotent
  | conflict
  deriving DecidableEq, Repr

structure AdoptionResult where
  changed : Bool
  outcome : AdoptionOutcome
  added : List Sha
  removed : List Sha
  affected : List Sha
  verificationState : LinkVerificationState
  withheld : List Sha

/-! ### Names of commits -/

/-- In lower case, and only if it is forty hexadecimal digits. -/
def normalizeSha (value : Text) : Option Sha :=
  if holds : (value.map Char.toLower).length = 40 ∧
      ∀ c ∈ value.map Char.toLower, isHex c = true then
    some ⟨value.map Char.toLower, holds.1, holds.2⟩
  else none

def normalizeShas (values : List Text) : List Sha := firsts id (values.filterMap normalizeSha)

namespace LinkObservationInput

variable (input : LinkObservationInput)

def sources : List Sha := normalizeShas input.sourceShas

def merged : Option Sha := input.mergeSha.bind normalizeSha

end LinkObservationInput

/-! ### One call -/

section Adopt

variable (store : LinkStore) (input : LinkObservationInput)

def currentLinks (links : LinkTable) (prNumber : Nat) (evidence : LinkEvidence) : List Sha :=
  (links.rows.filter fun row => row.prNumber = prNumber && row.evidence = evidence).map
    PullRequestCommitLinkRow.commitSha

def findLinkObservation (observations : Table LinkObservationRow.prNumber) (prNumber : Nat) :
    Option LinkObservationRow :=
  observations.rows.find? fun row => row.prNumber = prNumber

/-- The links with this evidence, for the commits that have none yet. -/
def insertLinks (links : LinkTable) (evidence : LinkEvidence) (shas : List Sha) : LinkTable :=
  links.putAll (shas.map fun sha => ⟨input.prNumber, sha, evidence, input.observedVersion⟩)

def deleteLinks (links : LinkTable) (evidence : LinkEvidence) (shas : List Sha) : LinkTable :=
  links.delete fun row =>
    row.prNumber = input.prNumber && row.evidence = evidence && shas.contains row.commitSha

def addSource : List Sha :=
  input.sources.filter fun sha => !(currentLinks store.links input.prNumber .source).contains sha

def dropSource : List Sha :=
  (currentLinks store.links input.prNumber .source).filter fun sha => !input.sources.contains sha

def addMerge : List Sha :=
  input.merged.toList.filter fun sha => !(currentLinks store.links input.prNumber .merge).contains sha

def dropMerge : List Sha :=
  (currentLinks store.links input.prNumber .merge).filter fun sha => input.merged ≠ some sha

/-- `removed`: what the observation has the right to remove. -/
def removedSource : List Sha := if input.commitsComplete then dropSource store input else []

def removedMerge : List Sha := if input.pullRequestAuthoritative then dropMerge store input else []

def adoptedLinks : LinkTable :=
  let added := insertLinks input store.links .source (addSource store input)
  let kept := deleteLinks input added .source (removedSource store input)
  let merged := insertLinks input kept .merge (addMerge store input)
  deleteLinks input merged .merge (removedMerge store input)

def adoptedState : LinkVerificationState :=
  if input.commitsComplete then .verified else .pendingRefetch

def adoptedObservation : LinkObservationRow where
  prNumber := input.prNumber
  observedVersion := input.observedVersion
  commitsComplete := input.commitsComplete
  fetchedCount := input.sources.length
  verificationState := adoptedState input
  refetchAttempts :=
    if adoptedState input = .pendingRefetch then
      ((findLinkObservation store.observations input.prNumber).map fun stored =>
        stored.refetchAttempts + 1).getD 0
    else 0
  lastReason := input.reason.map (·.take 200)

def adopted : AdoptionResult × LinkStore :=
  let added := addSource store input ++ addMerge store input
  let removed := removedSource store input ++ removedMerge store input
  let affected := firsts id (added ++ removed)
  (⟨!affected.isEmpty, .adopted, added, removed, affected, adoptedState input,
      if input.commitsComplete then [] else dropSource store input⟩,
    ⟨adoptedLinks store input, store.observations.put (adoptedObservation store input)⟩)

/-- The links say what the observation says. -/
def sameLinks : Bool :=
  let source := currentLinks store.links input.prNumber .source
  let merge := currentLinks store.links input.prNumber .merge
  let sameSource := source.length = input.sources.length && input.sources.all source.contains
  let sameMerge :=
    match input.merged with
    | none => merge.length = 0
    | some sha => merge.length = 1 && merge.contains sha
  sameSource && sameMerge

/-- Nothing changes. -/
def unchanged (outcome : AdoptionOutcome) (state : LinkVerificationState) :
    AdoptionResult × LinkStore :=
  (⟨false, outcome, [], [], [], state, []⟩, store)

/-- The same version says something else. -/
def conflicting (stored : LinkObservationRow) : AdoptionResult × LinkStore :=
  (⟨false, .conflict, [], [], [], .conflict,
      currentLinks store.links input.prNumber .source ++
        currentLinks store.links input.prNumber .merge⟩,
    { store with
      observations := store.observations.put
        { stored with
          verificationState := .conflict
          lastReason := some "same_version_different_set".toList } })

def adoptLinkObservation : AdoptionResult × LinkStore :=
  match findLinkObservation store.observations input.prNumber with
  | none => adopted store input
  | some stored =>
      if input.observedVersion < stored.observedVersion then
        unchanged store .stale stored.verificationState
      else if stored.observedVersion = input.observedVersion then
        if sameLinks store input then unchanged store .idempotent stored.verificationState
        else conflicting store input stored
      else adopted store input

end Adopt

/-- One call after another. -/
def adoptions : Automaton LinkStore LinkObservationInput where
  step store input := some (adoptLinkObservation store input).2

/-! ### What an adoption does to the links -/

/-- There is a link. -/
def Linked (links : LinkTable) (prNumber : Nat) (sha : Sha) (evidence : LinkEvidence) : Prop :=
  ∃ row ∈ links.rows, row.key = (prNumber, sha, evidence)

section Spec

variable {store : LinkStore} {links : LinkTable} {input : LinkObservationInput} {prNumber : Nat}
  {sha : Sha} {evidence : LinkEvidence} {shas : List Sha}

theorem mem_currentLinks : sha ∈ currentLinks links prNumber evidence ↔
    Linked links prNumber sha evidence := by
  simp only [currentLinks, Linked, List.mem_map, List.mem_filter, Bool.and_eq_true,
    decide_eq_true_eq, PullRequestCommitLinkRow.key, Prod.mk.injEq]
  constructor
  · rintro ⟨row, ⟨inside, pr, is⟩, own⟩
    exact ⟨row, inside, pr, own, is⟩
  · rintro ⟨row, inside, pr, own, is⟩
    exact ⟨row, ⟨inside, pr, is⟩, own⟩

theorem mem_firsts_id {shas : List Sha} : sha ∈ firsts id shas ↔ sha ∈ shas :=
  mem_firsts_of_inj fun _ _ _ _ same => same

-- A link is written over by none but itself.
theorem linked_insertLinks (distinct : shas.Nodup) {added : LinkEvidence} :
    Linked (insertLinks input links added shas) prNumber sha evidence ↔
      Linked links prNumber sha evidence ∨
        (prNumber = input.prNumber ∧ evidence = added ∧ sha ∈ shas) := by
  have keys : ((shas.map fun sha => (⟨input.prNumber, sha, added, input.observedVersion⟩ :
      PullRequestCommitLinkRow)).map PullRequestCommitLinkRow.key).Nodup := by
    rw [List.map_map]
    refine List.Nodup.map (fun left right same => ?_) distinct
    exact congrArg (fun key => key.2.1) same
  constructor
  · rintro ⟨row, member, is⟩
    rcases (Table.mem_putAll keys).mp member with new | ⟨old, _⟩
    · obtain ⟨written, inside, rfl⟩ := List.mem_map.mp new
      cases is
      exact .inr ⟨rfl, rfl, inside⟩
    · exact .inl ⟨row, old, is⟩
  · intro holds
    by_cases new : prNumber = input.prNumber ∧ evidence = added ∧ sha ∈ shas
    · obtain ⟨rfl, rfl, inside⟩ := new
      exact ⟨_, (Table.mem_putAll keys).mpr (.inl (List.mem_map_of_mem inside)), rfl⟩
    · obtain ⟨row, old, is⟩ := holds.resolve_right new
      refine ⟨row, (Table.mem_putAll keys).mpr (.inr ⟨old, fun written member same => new ?_⟩), is⟩
      obtain ⟨other, inside, rfl⟩ := List.mem_map.mp member
      rw [is] at same
      cases same
      exact ⟨rfl, rfl, inside⟩

theorem linked_deleteLinks {removed : LinkEvidence} :
    Linked (deleteLinks input links removed shas) prNumber sha evidence ↔
      Linked links prNumber sha evidence ∧
        ¬ (prNumber = input.prNumber ∧ evidence = removed ∧ sha ∈ shas) := by
  constructor
  · rintro ⟨row, member, is⟩
    obtain ⟨old, kept⟩ := Table.mem_delete.mp member
    refine ⟨⟨row, old, is⟩, ?_⟩
    cases is
    rintro ⟨own, rfl, inside⟩
    simp [own, inside] at kept
  · rintro ⟨⟨row, old, is⟩, kept⟩
    refine ⟨row, Table.mem_delete.mpr ⟨old, ?_⟩, is⟩
    cases is
    refine Bool.eq_false_iff.mpr fun gone => kept ?_
    simpa [and_assoc] using gone

theorem nodup_sources (input : LinkObservationInput) : input.sources.Nodup := by
  have distinct : (input.sources.map id).Nodup := nodup_firsts
  simpa using distinct

/-- An adopted observation has its links. Another link of the pull request stays when the observation
has no right to remove it. -/
theorem linked_adoptedLinks : Linked (adoptedLinks store input) prNumber sha evidence ↔
    if prNumber = input.prNumber then
      match evidence with
      | .source => sha ∈ input.sources ∨
          (Linked store.links prNumber sha .source ∧ input.commitsComplete = false)
      | .merge => input.merged = some sha ∨
          (Linked store.links prNumber sha .merge ∧ input.pullRequestAuthoritative = false)
    else Linked store.links prNumber sha evidence := by
  have sources : (addSource store input).Nodup := (nodup_sources input).filter _
  have merges : (addMerge store input).Nodup := by
    unfold addMerge
    cases input.merged with
    | none => simp
    | some sha => exact (List.nodup_singleton sha).filter _
  rw [adoptedLinks, linked_deleteLinks, linked_insertLinks merges, linked_deleteLinks,
    linked_insertLinks sources]
  by_cases own : prNumber = input.prNumber
  · subst own
    cases evidence with
    | source =>
      have add : sha ∈ addSource store input ↔
          sha ∈ input.sources ∧ ¬ Linked store.links input.prNumber sha .source := by
        simp [addSource, mem_currentLinks]
      have remove : sha ∈ removedSource store input ↔ input.commitsComplete = true ∧
          Linked store.links input.prNumber sha .source ∧ sha ∉ input.sources := by
        unfold removedSource
        split
        next complete => simp [dropSource, mem_currentLinks, complete]
        next partly => simp [partly]
      simp only [add, remove, true_and, reduceCtorEq, false_and, and_false, or_false, not_false_eq_true,
        and_true, if_true]
      cases input.commitsComplete <;> by_cases old : Linked store.links input.prNumber sha .source <;>
        by_cases listed : sha ∈ input.sources <;> simp [old, listed]
    | merge =>
      have add : sha ∈ addMerge store input ↔
          input.merged = some sha ∧ ¬ Linked store.links input.prNumber sha .merge := by
        simp [addMerge, mem_currentLinks]
      have remove : sha ∈ removedMerge store input ↔ input.pullRequestAuthoritative = true ∧
          Linked store.links input.prNumber sha .merge ∧ input.merged ≠ some sha := by
        unfold removedMerge
        split
        next read => simp [dropMerge, mem_currentLinks, read]
        next unread => simp [unread]
      simp only [add, remove, true_and, reduceCtorEq, false_and, and_false, or_false, not_false_eq_true,
        and_true, if_true]
      cases input.pullRequestAuthoritative <;>
        by_cases old : Linked store.links input.prNumber sha .merge <;>
        by_cases listed : input.merged = some sha <;> simp [old, listed]
  · simp [own]

/-! ### What a call does -/

/-- The three ways of a call: it leaves all as it is, it marks a conflict, or it adopts. -/
inductive Adoption (store : LinkStore) (input : LinkObservationInput) :
    AdoptionResult × LinkStore → Prop
  | none {stored : LinkObservationRow} {outcome : AdoptionOutcome}
      (found : findLinkObservation store.observations input.prNumber = some stored)
      (older : input.observedVersion ≤ stored.observedVersion) (other : outcome ≠ .adopted) :
      Adoption store input (unchanged store outcome stored.verificationState)
  | conflict {stored : LinkObservationRow}
      (found : findLinkObservation store.observations input.prNumber = some stored)
      (same : stored.observedVersion = input.observedVersion) :
      Adoption store input (conflicting store input stored)
  | adopted (newer : ∀ stored ∈ findLinkObservation store.observations input.prNumber,
      stored.observedVersion < input.observedVersion) : Adoption store input (adopted store input)

theorem adoption_of_call (store : LinkStore) (input : LinkObservationInput) :
    Adoption store input (adoptLinkObservation store input) := by
  unfold adoptLinkObservation
  split
  next none => exact .adopted fun stored is => by rw [none] at is; cases is
  next stored found =>
    split
    next older => exact .none found (Int.le_of_lt older) (by decide)
    next notOlder =>
      split
      next same =>
        split
        next => exact .none found (Int.le_of_eq same.symm) (by decide)
        next => exact .conflict found same
      next other =>
        refine .adopted fun stored' is => ?_
        obtain rfl := Option.some.inj (found.symm.trans is)
        omega

end Spec

end PrSearch.Links
