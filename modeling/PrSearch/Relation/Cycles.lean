import PrSearch.Relation.Stacks

/-! # Short cycles of stacks

An edge that holds by its branches is left out when the walk from its parent comes back to the
child, and also when the walk comes upon itself or the parent is past the twentieth of its branch.
The walk follows one parent of several, so that it may miss the way back. The planned edges have
no cycle of ten edges or fewer, and none is lost, exactly when each such cycle of candidates has an
edge whose walk tells of it, and no walk tells of a cycle that the child is not on.
-/
namespace PrSearch.Relation

open Query (Text)
open Rows

/-! ### Cycles of a relation -/

section Cycle

variable {α : Type*}

/-- The edges of a cycle, the last one back to the first element. -/
def edges (cycle : List α) : List (α × α) := cycle.zip (cycle.rotate 1)

structure IsCycle (Edge : α → α → Prop) (cycle : List α) : Prop where
  nonempty : cycle ≠ []
  edge : ∀ pair ∈ edges cycle, Edge pair.1 pair.2

theorem IsCycle.mono {Edge Wider : α → α → Prop} {cycle : List α} (is : IsCycle Edge cycle)
    (wider : ∀ a b, Edge a b → Wider a b) : IsCycle Wider cycle :=
  ⟨is.nonempty, fun pair member => wider _ _ (is.edge pair member)⟩

end Cycle

/-! ### The edges that the branches give -/

section Stacks

variable (snapshots : Snapshots)

/-- The branches make the second pull request a parent of the first one. -/
structure Candidate (child parent : PullRequestSnapshotRow) : Prop where
  childStored : child ∈ snapshots.pullRequests
  parentStored : parent ∈ snapshots.pullRequests
  named : field child.document.baseBranch ≠ []
  holds : Snapshots.isOpenHead (field child.document.baseBranch) parent = true

/-- The plan of the child has the edge. -/
def Planned (child parent : PullRequestSnapshotRow) : Prop :=
  child ∈ snapshots.pullRequests ∧ parent ∈ snapshots.pullRequests ∧
    ∃ desired ∈ (snapshots.planStacks child).desired, desired.parentPrNumber = parent.prNumber

/-- Candidate edges lead from the first pull request to the second. -/
def Reaches : PullRequestSnapshotRow → PullRequestSnapshotRow → Prop :=
  Relation.ReflTransGen (Candidate snapshots)

/-- The parent is among the first twenty open pull requests of its branch. -/
def LookedAt (child parent : PullRequestSnapshotRow) : Prop :=
  parent ∈ snapshots.findOpenPullRequestsByHeadBranch (field child.document.baseBranch)
    stackCandidateLimit

/-- No edge is made for the parent. -/
def LeftOut (child parent : PullRequestSnapshotRow) : Prop :=
  snapshots.Returns parent child ∨ snapshots.Repeats parent ∨ ¬ LookedAt snapshots child parent

/-- The planned edges have no short cycle, and an edge is left out only on a cycle. -/
structure StacksRight : Prop where
  noShortCycle : ∀ cycle, IsCycle (Planned snapshots) cycle → stackMaxDepth < cycle.length
  noneLost : ∀ child parent, Candidate snapshots child parent → ¬ Planned snapshots child parent →
    Reaches snapshots parent child

/-- A walk from a parent that does not lead back to the child tells of no cycle, and each short
cycle of candidates has an edge that is left out. -/
structure WalksTell : Prop where
  parents : ∀ child parent, Candidate snapshots child parent → ¬ Reaches snapshots parent child →
    LookedAt snapshots child parent ∧ ¬ snapshots.Repeats parent
  cycles : ∀ cycle, IsCycle (Candidate snapshots) cycle → cycle.length ≤ stackMaxDepth →
    ∃ pair ∈ edges cycle, LeftOut snapshots pair.1 pair.2

end Stacks

/-! ### What is planned -/

section Planning

variable {snapshots : Snapshots} {child parent : PullRequestSnapshotRow}

theorem mem_candidates_iff (inside : child ∈ snapshots.pullRequests) :
    parent ∈ snapshots.stackCandidates child ↔
      Candidate snapshots child parent ∧ LookedAt snapshots child parent ∧
        parent.prNumber ≠ child.prNumber := by
  simp only [Snapshots.stackCandidates]
  split
  next unnamed =>
    refine iff_of_false List.not_mem_nil ?_
    rintro ⟨is, _⟩
    exact is.named unnamed
  next named =>
    rw [List.mem_filter, decide_eq_true_eq]
    constructor
    · rintro ⟨looked, other⟩
      obtain ⟨member, holds⟩ := of_mem_select looked
      exact ⟨⟨inside, member, named, holds⟩, looked, other⟩
    · rintro ⟨_, looked, other⟩
      exact ⟨looked, other⟩

theorem planned_iff : Planned snapshots child parent ↔
    Candidate snapshots child parent ∧ ¬ LeftOut snapshots child parent := by
  have desired : ∀ one, one ∈ (snapshots.planStacks child).desired ↔
      ∃ row ∈ snapshots.stackCandidates child,
        snapshots.walkChain row child.prNumber = .ok ∧
          ⟨row.prNumber, Snapshots.stackEvidence child row, canonicalTime child.document⟩ = one := by
    intro one
    simp only [Snapshots.planStacks, List.mem_map, List.mem_filter, decide_eq_true_eq, and_assoc]
  constructor
  · rintro ⟨inside, member, one, planned, same⟩
    obtain ⟨row, candidate, ok, rfl⟩ := (desired one).mp planned
    obtain ⟨is, looked, _⟩ := (mem_candidates_iff inside).mp candidate
    obtain rfl := snapshots.pullRequestKey.eq is.parentStored member same
    obtain ⟨noReturn, noRepeat⟩ := (snapshots.walkChain_ok_iff row child).mp ok
    refine ⟨is, ?_⟩
    rintro (back | again | unseen)
    · exact noReturn back
    · exact noRepeat again
    · exact unseen looked
  · rintro ⟨is, kept⟩
    obtain ⟨noReturn, noRepeat, looked⟩ :
        ¬ snapshots.Returns parent child ∧ ¬ snapshots.Repeats parent ∧
          LookedAt snapshots child parent := by
      simpa only [LeftOut, not_or, not_not] using kept
    -- the child itself would be met at once
    have other : parent.prNumber ≠ child.prNumber :=
      fun same => noReturn ⟨0, by decide, parent, rfl, same⟩
    refine ⟨is.childStored, is.parentStored, _, (desired _).mpr ⟨parent, ?_, ?_, rfl⟩, rfl⟩
    · exact (mem_candidates_iff is.childStored).mpr ⟨is, looked, other⟩
    · exact (snapshots.walkChain_ok_iff parent child).mpr ⟨noReturn, noRepeat⟩

theorem Candidate.of_firstParent (inside : child ∈ snapshots.pullRequests)
    (first : snapshots.firstParent child = some parent) : Candidate snapshots child parent := by
  simp only [Snapshots.firstParent] at first
  split at first
  next => simp at first
  next named =>
    obtain ⟨member, holds⟩ := of_mem_select (List.mem_of_head? first)
    exact ⟨inside, member, named, holds⟩

-- Each step of a chain is a candidate edge.
theorem reaches_of_chain {steps : Nat} {met : PullRequestSnapshotRow}
    (inside : parent ∈ snapshots.pullRequests)
    (reached : snapshots.chain steps (some parent) = some met) : Reaches snapshots parent met := by
  induction steps generalizing parent with
  | zero =>
    obtain rfl : parent = met := by simpa [Snapshots.chain] using reached
    exact Relation.ReflTransGen.refl
  | succ steps ih =>
    rw [Snapshots.chain, Option.bind_some] at reached
    cases first : snapshots.firstParent parent with
    | none => simp [first] at reached
    | some next =>
      have edge := Candidate.of_firstParent inside first
      rw [first] at reached
      exact Relation.ReflTransGen.head edge (ih edge.parentStored reached)

theorem Candidate.reaches_of_returns (is : Candidate snapshots child parent)
    (back : snapshots.Returns parent child) : Reaches snapshots parent child := by
  obtain ⟨steps, _, met, reached, same⟩ := back
  have way := reaches_of_chain is.parentStored reached
  have inside : met ∈ snapshots.pullRequests := by
    rcases way.cases_tail with rfl | ⟨_, _, last⟩
    · exact is.parentStored
    · exact last.parentStored
  rwa [snapshots.pullRequestKey.eq inside is.childStored same] at way

end Planning

/-! ### When the walks are right -/

/-- The stacks are planned without a short cycle and without a loss exactly when the walks tell of
the cycles that their children are on, and of no others. -/
theorem stacks_right_iff (snapshots : Snapshots) :
    StacksRight snapshots ↔ WalksTell snapshots := by
  constructor
  · intro right
    refine ⟨fun child parent is away => ?_, fun cycle isCycle short => ?_⟩
    · have planned : Planned snapshots child parent := by
        by_contra lost
        exact away (right.noneLost child parent is lost)
      have kept := (planned_iff.mp planned).2
      simp only [LeftOut, not_or, not_not] at kept
      exact ⟨kept.2.2, kept.2.1⟩
    · by_contra none
      -- the edges of the cycle would all be planned
      have planned : IsCycle (Planned snapshots) cycle := by
        refine ⟨isCycle.nonempty, fun pair member => ?_⟩
        refine planned_iff.mpr ⟨isCycle.edge pair member, fun left => ?_⟩
        exact none ⟨pair, member, left⟩
      exact Nat.not_lt.mpr short (right.noShortCycle cycle planned)
  · intro tell
    refine ⟨fun cycle isCycle => ?_, fun child parent is lost => ?_⟩
    · by_contra short
      have candidates := isCycle.mono fun _ _ planned => (planned_iff.mp planned).1
      obtain ⟨pair, member, left⟩ := tell.cycles cycle candidates (Nat.not_lt.mp short)
      exact (planned_iff.mp (isCycle.edge pair member)).2 left
    · by_contra away
      obtain ⟨looked, noRepeat⟩ := tell.parents child parent is away
      refine lost (planned_iff.mpr ⟨is, ?_⟩)
      rintro (back | again | unseen)
      · exact away (is.reaches_of_returns back)
      · exact noRepeat again
      · exact unseen looked

def pullRequestOf (prNumber : Nat) (head base : String) : PullRequestSnapshotRow where
  prNumber := prNumber
  document := { headBranch := some head.toList, baseBranch := some base.toList,
                state := some "open".toList }

/-- Two pull requests on each other, and before each of them another one with the same head. -/
def crossing : Snapshots where
  pullRequests := [pullRequestOf 1 "a" "main", pullRequestOf 2 "b" "main", pullRequestOf 3 "a" "b",
    pullRequestOf 4 "b" "a"]
  commits := []
  pullRequestKey := by decide
  commitKey := List.nodup_nil

/-- Two pull requests on each other, and a third one on the first. -/
def hanging : Snapshots where
  pullRequests := [pullRequestOf 1 "a" "b", pullRequestOf 2 "b" "a", pullRequestOf 3 "c" "a"]
  commits := []
  pullRequestKey := by decide
  commitKey := List.nodup_nil

/-- The two on each other are both planned in the first case, and in the second the edge of the
third one is lost. -/
theorem crossing_and_hanging_stacks : ¬ StacksRight crossing ∧ ¬ StacksRight hanging := by
  constructor
  · intro right
    have planned : IsCycle (Planned crossing) [pullRequestOf 3 "a" "b", pullRequestOf 4 "b" "a"] := by
      refine ⟨by simp, ?_⟩
      unfold Planned
      decide
    exact absurd (right.noShortCycle _ planned) (by decide)
  · intro right
    have lost : ¬ Planned hanging (pullRequestOf 3 "c" "a") (pullRequestOf 1 "a" "b") := by
      unfold Planned
      decide
    have way := right.noneLost _ _ ⟨by decide, by decide, by decide, by decide⟩ lost
    -- no base is the head of the third one
    have never : ∀ child ∈ hanging.pullRequests, ∀ parent ∈ hanging.pullRequests,
        Snapshots.isOpenHead (field child.document.baseBranch) parent = true →
          parent.prNumber ≠ 3 := by decide
    rcases way.cases_tail with same | ⟨child, _, edge⟩
    · exact absurd same (by decide)
    · exact never child edge.childStored _ edge.parentStored edge.holds rfl

end PrSearch.Relation
