import Mathlib.Data.List.Rotate
import Mathlib.Logic.Relation
import PrSearch.Relation.Snapshots

/-! # Stacks

A pull request is stacked on another when its base is the head of the other and the other is open.
Several open pull requests may share a head; each of the first twenty is a parent. Before an edge is
made, the walk goes up from the parent, from each pull request to the first one whose head is its
base, and no edge is made when the walk meets a pull request that it has met already.
-/
namespace PrSearch.Relation

open Query (Text)

def stackMaxDepth : Nat := 10

def stackCandidateLimit : Nat := 20

/-- A stack edge that holds now. -/
structure StackDesired where
  parentPrNumber : Nat
  evidence : Text
  edgeCreatedAt : Text
  deriving DecidableEq, Repr

structure StackPlan where
  desired : List StackDesired
  cycles : Nat
  deriving DecidableEq, Repr

inductive Walk
  | ok
  | cycle
  deriving DecidableEq, Repr

/-- The time of a pull request: the first of its times that is there. -/
def canonicalTime (document : PullRequestDocument) : Text :=
  let times := [document.updatedAt, document.createdAt, document.indexedAt].reduceOption
  (times.find? fun time => time ≠ []).getD "1970-01-01T00:00:00.000Z".toList

namespace Snapshots

variable (snapshots : Snapshots)

/-- The first open pull request whose head is the base of this one. -/
def firstParent (row : PullRequestSnapshotRow) : Option PullRequestSnapshotRow :=
  let base := field row.document.baseBranch
  if base = [] then none else (snapshots.findOpenPullRequestsByHeadBranch base 1).head?

/-- The loop of `walkChain`, for the steps that are left. -/
def walkFrom : Nat → List Nat → Option PullRequestSnapshotRow → Walk
  | 0, _, _ => .ok
  | _ + 1, _, none => .ok
  | steps + 1, visited, some current =>
      if current.prNumber ∈ visited then .cycle
      else walkFrom steps (current.prNumber :: visited) (snapshots.firstParent current)

def walkChain (start : PullRequestSnapshotRow) (selfPrNumber : Nat) : Walk :=
  snapshots.walkFrom stackMaxDepth [selfPrNumber] (some start)

/-- The parents that are looked at. -/
def stackCandidates (self : PullRequestSnapshotRow) : List PullRequestSnapshotRow :=
  let base := field self.document.baseBranch
  if base = [] then []
  else (snapshots.findOpenPullRequestsByHeadBranch base stackCandidateLimit).filter
    fun parent => parent.prNumber ≠ self.prNumber

/-- `base … = head of #…` -/
def stackEvidence (self parent : PullRequestSnapshotRow) : Text :=
  "base ".toList ++ field self.document.baseBranch ++ " = head of #".toList ++
    (toString parent.prNumber).toList

def planStacks (self : PullRequestSnapshotRow) : StackPlan where
  desired := ((snapshots.stackCandidates self).filter fun parent =>
      snapshots.walkChain parent self.prNumber = .ok).map fun parent =>
    ⟨parent.prNumber, stackEvidence self parent, canonicalTime self.document⟩
  cycles := ((snapshots.stackCandidates self).filter fun parent =>
    snapshots.walkChain parent self.prNumber = .cycle).length

end Snapshots

/-! ### The chain of first parents -/

namespace Snapshots

section Chain

variable (snapshots : Snapshots)

/-- The pull request that so many steps from the first one lead to. -/
def chain : Nat → Option PullRequestSnapshotRow → Option PullRequestSnapshotRow
  | 0, start => start
  | steps + 1, start => chain steps (start.bind snapshots.firstParent)

@[simp]
theorem chain_none (steps : Nat) : snapshots.chain steps none = none := by
  induction steps with
  | zero => rfl
  | succ steps ih => exact ih

/-- The chain comes to the pull request within ten steps. -/
def Returns (parent child : PullRequestSnapshotRow) : Prop :=
  ∃ steps < stackMaxDepth, ∃ met, snapshots.chain steps (some parent) = some met ∧
    met.prNumber = child.prNumber

/-- The chain comes upon one of its own pull requests within ten steps. -/
def Repeats (parent : PullRequestSnapshotRow) : Prop :=
  ∃ later < stackMaxDepth, ∃ earlier < later, ∃ met again,
    snapshots.chain earlier (some parent) = some met ∧
      snapshots.chain later (some parent) = some again ∧ again.prNumber = met.prNumber

-- What a walk has met is what it had met before and what its chain has come to since.
theorem walkFrom_cycle_iff (steps : Nat) (visited : List Nat)
    (start : Option PullRequestSnapshotRow) :
    snapshots.walkFrom steps visited start = .cycle ↔
      ∃ later < steps, ∃ again, snapshots.chain later start = some again ∧
        (again.prNumber ∈ visited ∨ ∃ earlier < later, ∃ met,
          snapshots.chain earlier start = some met ∧ again.prNumber = met.prNumber) := by
  induction steps generalizing visited start with
  | zero => simp [walkFrom]
  | succ steps ih =>
    cases start with
    | none => simp [walkFrom]
    | some current =>
      rw [walkFrom]
      split
      next old =>
        -- the first pull request has been met before
        refine iff_of_true rfl ⟨0, Nat.succ_pos steps, current, rfl, .inl old⟩
      next fresh =>
        rw [ih]
        constructor
        · rintro ⟨later, bound, again, reached, before⟩
          refine ⟨later + 1, Nat.succ_lt_succ bound, again, reached, ?_⟩
          rcases before with inside | ⟨earlier, less, met, passed, same⟩
          · rcases List.mem_cons.mp inside with same | inside
            · exact .inr ⟨0, Nat.succ_pos later, current, rfl, same⟩
            · exact .inl inside
          · exact .inr ⟨earlier + 1, Nat.succ_lt_succ less, met, passed, same⟩
        · rintro ⟨later, bound, again, reached, before⟩
          cases later with
          | zero =>
            obtain rfl : current = again := by simpa [chain] using reached
            rcases before with inside | ⟨earlier, less, _⟩
            · exact absurd inside fresh
            · exact absurd less (Nat.not_lt_zero earlier)
          | succ later =>
            refine ⟨later, Nat.lt_of_succ_lt_succ bound, again, reached, ?_⟩
            rcases before with inside | ⟨earlier, less, met, passed, same⟩
            · exact .inl (List.mem_cons_of_mem _ inside)
            · cases earlier with
              | zero =>
                obtain rfl : current = met := by simpa [chain] using passed
                exact .inl (List.mem_cons.mpr (.inl same))
              | succ earlier => exact .inr ⟨earlier, Nat.lt_of_succ_lt_succ less, met, passed, same⟩

theorem walkChain_cycle_iff (parent child : PullRequestSnapshotRow) :
    snapshots.walkChain parent child.prNumber = .cycle ↔
      snapshots.Returns parent child ∨ snapshots.Repeats parent := by
  rw [walkChain, walkFrom_cycle_iff]
  constructor
  · rintro ⟨later, bound, again, reached, inside | ⟨earlier, less, met, passed, same⟩⟩
    · exact .inl ⟨later, bound, again, reached, List.mem_singleton.mp inside⟩
    · exact .inr ⟨later, bound, earlier, less, met, again, passed, reached, same⟩
  · rintro (⟨later, bound, again, reached, same⟩ |
      ⟨later, bound, earlier, less, met, again, passed, reached, same⟩)
    · exact ⟨later, bound, again, reached, .inl (List.mem_singleton.mpr same)⟩
    · exact ⟨later, bound, again, reached, .inr ⟨earlier, less, met, passed, same⟩⟩

theorem walkChain_ok_iff (parent child : PullRequestSnapshotRow) :
    snapshots.walkChain parent child.prNumber = .ok ↔
      ¬ snapshots.Returns parent child ∧ ¬ snapshots.Repeats parent := by
  rw [← not_or, ← walkChain_cycle_iff]
  cases snapshots.walkChain parent child.prNumber <;> simp

end Chain

end Snapshots

end PrSearch.Relation
