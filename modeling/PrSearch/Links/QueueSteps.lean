import PrSearch.Links.Queue

/-! # What the statements do to a row

Every statement is told by the row that it leaves for a commit, from the row that was there.
-/
namespace PrSearch.Links

open PrSearch.Relation (Sha)
open Index.CommitLinks
open Rows

section States

variable {W : Type} {states : CommitLinkStates W} {sha : Sha} {row : CommitLinkStateRow W}

theorem commitSha_of_find (found : findCommitLinkState states sha = some row) :
    row.commitSha = sha := (states.keyed.find?_eq_some.mp found).2

@[simp] theorem find_update (change : CommitLinkStateRow W → CommitLinkStateRow W)
    (keeps : ∀ row, (change row).commitSha = row.commitSha) :
    findCommitLinkState (states.update change keeps) sha =
      (findCommitLinkState states sha).map change := by
  simp only [findCommitLinkState, Table.update, List.find?_map]
  congr 2
  funext row
  simp [keeps]

theorem find_put_row (row : CommitLinkStateRow W) :
    findCommitLinkState (states.put row) sha =
      if sha = row.commitSha then some row else findCommitLinkState states sha := by
  refine Option.ext fun other => ?_
  rw [findCommitLinkState, (states.put row).keyed.find?_eq_some, Table.mem_put]
  split
  next own =>
    subst own
    constructor
    · rintro ⟨rfl | ⟨_, apart⟩, same⟩
      · rfl
      · exact absurd same apart
    · rintro ⟨⟩
      exact ⟨.inl rfl, rfl⟩
  next apart =>
    rw [findCommitLinkState, states.keyed.find?_eq_some]
    constructor
    · rintro ⟨rfl | ⟨kept, _⟩, same⟩
      · exact absurd same.symm apart
      · exact ⟨kept, same⟩
    · rintro ⟨kept, rfl⟩
      exact ⟨.inr ⟨kept, apart⟩, rfl⟩

/-! ### Commits that are asked for -/

/-- The row of a commit that has been asked for, after the row that was there. -/
structure Asked (earlier : Option (CommitLinkStateRow W)) (row : CommitLinkStateRow W) : Prop where
  raised : ∀ old ∈ earlier, old.generation < row.generation ∧
    row.projectedGeneration = old.projectedGeneration
  first : earlier = none → row.projectedGeneration < row.generation
  state : row.state = .ready ∨ ∃ old ∈ earlier, row.state = .leased ∧ old.state = .leased ∧
    row.leaseToken = old.leaseToken ∧ row.attemptCount = old.attemptCount

theorem asked_bumpedRow (old : CommitLinkStateRow W) : Asked (some old) (bumpedRow old) where
  raised := by
    rintro _ ⟨⟩
    exact ⟨Int.lt_succ _, rfl⟩
  first none := nomatch none
  state := by
    by_cases leased : old.state = .leased
    · exact .inr ⟨old, rfl, by simp [bumpedRow, leased], leased, rfl, by simp [bumpedRow, leased]⟩
    · exact .inl (by simp [bumpedRow, leased])

theorem Asked.again {earlier : Option (CommitLinkStateRow W)} (asked : Asked earlier row) :
    Asked earlier (bumpedRow row) where
  raised old is := by
    obtain ⟨less, same⟩ := asked.raised old is
    exact ⟨Int.lt_trans less (Int.lt_succ _), same⟩
  first none := Int.lt_trans (asked.first none) (Int.lt_succ _)
  state := by
    rcases asked.state with ready | ⟨old, is, leased, wasLeased, token, attempts⟩
    · exact .inl (by simp [bumpedRow, ready])
    · refine .inr ⟨old, is, ?_, wasLeased, token, ?_⟩
      · simp [bumpedRow, leased]
      · simpa [bumpedRow, leased] using attempts

theorem find_bumpCommitLinkGeneration (other : Sha) :
    findCommitLinkState (bumpCommitLinkGeneration states other) sha =
      if sha = other then
        some (((findCommitLinkState states sha).map bumpedRow).getD
          { commitSha := sha, generation := 1, projectedGeneration := 0, state := .ready })
      else findCommitLinkState states sha := by
  unfold bumpCommitLinkGeneration
  split
  next none =>
    rw [find_put_row]
    split
    next own =>
      subst own
      simp [none]
    next => rfl
  next row found =>
    have kept : row.commitSha = other := commitSha_of_find found
    have own : (bumpedRow row).commitSha = other := kept
    rw [find_put_row, own]
    split
    next is =>
      subst is
      simp [found]
    next => rfl

theorem find_bump_of_not_mem (states : CommitLinkStates W) {shas : List Sha} (apart : sha ∉ shas) :
    findCommitLinkState (bumpCommitLinkGenerations states shas) sha =
      findCommitLinkState states sha := by
  induction shas generalizing states with
  | nil => rfl
  | cons first rest ih =>
    obtain ⟨other, later⟩ := List.ne_and_not_mem_of_not_mem_cons apart
    change findCommitLinkState
      (bumpCommitLinkGenerations (bumpCommitLinkGeneration states first) rest) sha = _
    rw [ih _ later, find_bumpCommitLinkGeneration, if_neg other]

theorem find_bump_of_mem (states : CommitLinkStates W) {shas : List Sha} (inside : sha ∈ shas) :
    ∃ row, findCommitLinkState (bumpCommitLinkGenerations states shas) sha = some row ∧
      Asked (findCommitLinkState states sha) row := by
  -- from the first time on, every further one raises the row again
  have further : ∀ (shas : List Sha) (states : CommitLinkStates W)
      (earlier : Option (CommitLinkStateRow W)) (row : CommitLinkStateRow W),
        findCommitLinkState states sha = some row → Asked earlier row →
          ∃ row, findCommitLinkState (bumpCommitLinkGenerations states shas) sha = some row ∧
            Asked earlier row := by
    intro shas
    induction shas with
    | nil => exact fun states earlier row found asked => ⟨row, found, asked⟩
    | cons first rest ih =>
      intro states earlier row found asked
      by_cases own : sha = first
      · refine ih (bumpCommitLinkGeneration states first) earlier (bumpedRow row) ?_ asked.again
        rw [find_bumpCommitLinkGeneration, if_pos own, found]
        rfl
      · refine ih (bumpCommitLinkGeneration states first) earlier row ?_ asked
        rw [find_bumpCommitLinkGeneration, if_neg own, found]
  induction shas generalizing states with
  | nil => cases inside
  | cons first rest ih =>
    by_cases own : sha = first
    · refine further rest (bumpCommitLinkGeneration states first) _ _
        (by rw [find_bumpCommitLinkGeneration, if_pos own]) ?_
      cases found : findCommitLinkState states sha with
      | none => exact ⟨by simp, fun _ => by simp, .inl rfl⟩
      | some old => exact asked_bumpedRow old
    · obtain ⟨row, found, asked⟩ :=
        ih (bumpCommitLinkGeneration states first) (List.mem_of_ne_of_mem own inside)
      rw [find_bumpCommitLinkGeneration, if_neg own] at asked
      exact ⟨row, found, asked⟩

end States

end PrSearch.Links
