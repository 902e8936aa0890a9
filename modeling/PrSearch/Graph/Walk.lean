import Mathlib.Data.List.Chain
import Mathlib.Data.List.Perm.Subperm
import PrSearch.Graph.Api

/-! # The walk along first parents

The walk of `firstParentChain` goes from a commit to its first parent until it comes to the stop commit,
to a root, or to a commit that the list does not have. Nothing else stops it: it ends when it does not come
to a commit that is its own ancestor along first parents, and only then.
-/
open Relation (TransGen ReflTransGen)

namespace PrSearch.Graph

open Sequence (Sha Fault)

/-- The walk goes on from a commit to this one. -/
def Follows (commits : List CommitSummary) (fromSha : Option Sha) (sha next : Sha) : Prop :=
  some sha ≠ fromSha ∧ ∃ node, findCommit commits sha = some node ∧ node.parents.head? = some next

/-- The commits that the turns of the walk find, in their order. -/
def visits (commits : List CommitSummary) (fromSha : Option Sha) : Nat → Option Sha → List Sha
  | 0, _ => []
  | _ + 1, none => []
  | fuel + 1, some sha =>
      if some sha = fromSha then []
      else
        match findCommit commits sha with
        | none => []
        | some node => sha :: visits commits fromSha fuel node.parents.head?

section Walk

variable {commits : List CommitSummary} {fromSha : Option Sha} {toSha a b c : Sha} {fuel : Nat}
  {cursor : Option Sha} {chain : List Sha}

theorem walk_follows (follows : Follows commits fromSha a b) :
    walk commits toSha fromSha (fuel + 1) (some a) chain =
      walk commits toSha fromSha fuel (some b) (chain ++ [a]) := by
  obtain ⟨inside, node, found, parent⟩ := follows
  simp [walk, inside, found, parent]

/-- The walk to a cycle does not end. -/
theorem walk_cycle (toCycle : TransGen (Follows commits fromSha) a c)
    (cycle : TransGen (Follows commits fromSha) c c) :
    walk commits toSha fromSha fuel (some a) chain = none := by
  induction fuel generalizing a chain with
  | zero => rfl
  | succ fuel ih =>
    obtain ⟨b, first, rest⟩ := TransGen.head'_iff.mp toCycle
    rw [walk_follows first]
    exact ih (cycle.trans_right rest)

/-- Each commit is the first parent of the one before. -/
theorem visits_isChain :
    (visits commits fromSha fuel cursor).IsChain (Follows commits fromSha) ∧
      ∀ first ∈ (visits commits fromSha fuel cursor).head?, cursor = some first := by
  induction fuel generalizing cursor with
  | zero => simp [visits]
  | succ fuel ih =>
    cases cursor with
    | none => simp [visits]
    | some sha =>
      by_cases stop : some sha = fromSha
      · simp [visits, stop]
      · cases found : findCommit commits sha with
        | none => simp [visits, stop, found]
        | some node =>
          simp only [visits, stop, if_false, found, List.isChain_cons, List.head?_cons,
            Option.mem_some_iff]
          refine ⟨⟨fun next first => ⟨stop, node, found, ih.2 next first⟩, ih.1⟩, ?_⟩
          rintro first rfl
          rfl

/-- Of two commits that are found the later one comes after the other. -/
theorem visits_pairwise :
    (visits commits fromSha fuel cursor).Pairwise (TransGen (Follows commits fromSha)) :=
  (visits_isChain.1.imp fun _ _ => TransGen.single).pairwise

theorem visits_reached (inside : b ∈ visits commits fromSha fuel (some a)) :
    ReflTransGen (Follows commits fromSha) a b := by
  have first := (visits_isChain : (visits commits fromSha fuel (some a)).IsChain _ ∧ _).2
  have after := (visits_pairwise : (visits commits fromSha fuel (some a)).Pairwise _)
  cases is : visits commits fromSha fuel (some a) with
  | nil =>
    rw [is] at inside
    cases inside
  | cons start path =>
    rw [is] at inside first after
    cases first start rfl
    rcases List.mem_cons.mp inside with rfl | later
    · exact .refl
    · exact ((List.pairwise_cons.mp after).1 b later).to_reflTransGen

/-- No commit that the walk comes to is its own ancestor. -/
def Acyclic (commits : List CommitSummary) (fromSha : Option Sha) (toSha : Sha) : Prop :=
  ∀ sha, ReflTransGen (Follows commits fromSha) toSha sha → ¬ TransGen (Follows commits fromSha) sha sha

theorem visits_nodup (acyclic : Acyclic commits fromSha toSha) (fuel : Nat) :
    (visits commits fromSha fuel (some toSha)).Nodup := by
  refine visits_pairwise.imp_of_mem fun inside _ after same => ?_
  exact acyclic _ (visits_reached inside) (same ▸ after)

/-- A walk that has not ended has found a commit in every turn. -/
theorem visits_of_none (running : walk commits toSha fromSha fuel cursor chain = none) :
    (visits commits fromSha fuel cursor).length = fuel ∧
      visits commits fromSha fuel cursor ⊆ commits.map CommitSummary.sha := by
  induction fuel generalizing cursor chain with
  | zero => simp [visits]
  | succ fuel ih =>
    cases cursor with
    | none => simp [walk] at running
    | some sha =>
      by_cases stop : some sha = fromSha
      · simp [walk, stop] at running
      · cases found : findCommit commits sha with
        | none => simp [walk, stop, found] at running
        | some node =>
          simp only [walk, stop, if_false, found] at running
          obtain ⟨long, listed⟩ := ih running
          have member : node ∈ commits := List.mem_reverse.mp (List.mem_of_find?_eq_some found)
          have named : node.sha = sha := by simpa using List.find?_some found
          simp only [visits, stop, if_false, found, List.length_cons, long, true_and]
          exact List.cons_subset.mpr ⟨List.mem_map.mpr ⟨node, member, named⟩, listed⟩

/-- A turn for every commit of the list, and one more, are enough. -/
theorem exists_result (acyclic : Acyclic commits fromSha toSha) :
    ∃ result, walk commits toSha fromSha (commits.length + 1) (some toSha) [] = some result := by
  refine Option.ne_none_iff_exists'.mp fun running => ?_
  obtain ⟨long, listed⟩ := visits_of_none running
  have few := ((visits_nodup acyclic (commits.length + 1)).subperm listed).length_le
  rw [long, List.length_map] at few
  omega

/-- A list that is returned is what has been found, and behind it is the stop commit, or no parent. -/
theorem walk_ok {result : List Sha}
    (ended : walk commits toSha fromSha fuel cursor chain = some (.ok result)) :
    result = (chain ++ visits commits fromSha fuel cursor).reverse ∧
      (visits commits fromSha fuel cursor = [] → cursor = fromSha) ∧
        ∀ last ∈ (visits commits fromSha fuel cursor).getLast?,
          ∃ node, findCommit commits last = some node ∧ node.parents.head? = fromSha := by
  induction fuel generalizing cursor chain with
  | zero => cases ended
  | succ fuel ih =>
    cases cursor with
    | none =>
      cases fromSha with
      | some stop => simp [walk, chainEnd] at ended
      | none =>
        simp only [walk, chainEnd, ne_eq, not_true_eq_false, false_and, if_false, Option.some.injEq,
          Except.ok.injEq] at ended
        simp [visits, ← ended]
    | some sha =>
      by_cases stop : some sha = fromSha
      · simp only [walk, stop, if_true, chainEnd, ne_eq, not_true_eq_false, and_false, if_false,
          Option.some.injEq, Except.ok.injEq] at ended
        simp [visits, stop, ← ended]
      · cases found : findCommit commits sha with
        | none => simp [walk, stop, found] at ended
        | some node =>
          simp only [walk, stop, if_false, found] at ended
          obtain ⟨is, behind, last⟩ := ih ended
          simp only [visits, stop, if_false, found]
          have whole : result = (chain ++ sha :: visits commits fromSha fuel node.parents.head?).reverse := by
            rw [is, List.append_assoc, List.singleton_append]
          refine ⟨whole, fun never => absurd never (List.cons_ne_nil _ _), fun final isLast => ?_⟩
          cases rest : visits commits fromSha fuel node.parents.head? with
          | nil =>
            rw [rest] at isLast
            cases isLast
            exact ⟨node, found, behind rest⟩
          | cons next path =>
            rw [rest, List.getLast?_cons_cons, ← rest] at isLast
            exact last final isLast

end Walk

/-- What a list that is returned is: distinct commits, the oldest first, each the first parent of the
next; the newest is the end of the range, and the oldest has the stop commit, or nothing, as its first
parent. -/
structure FirstParents (commits : List CommitSummary) (range : RevRange) (chain : List Sha) : Prop where
  distinct : chain.Nodup
  linked : chain.IsChain fun old new => Follows commits range.fromSha new old
  empty : chain = [] → range.fromSha = some range.toSha
  newest : ∀ sha ∈ chain.getLast?, sha = range.toSha
  oldest : ∀ sha ∈ chain.head?, ∃ node, findCommit commits sha = some node ∧
    node.parents.head? = range.fromSha

/-- The walk ends, comes to no commit twice, and returns first parents or an error. -/
structure Walks (commits : List CommitSummary) (range : RevRange) : Prop where
  ends : ∃ fuel result, firstParentChain fuel commits range = some result
  once : ∀ fuel, (visits commits range.fromSha fuel (some range.toSha)).Nodup
  returns : ∀ fuel chain, firstParentChain fuel commits range = some (.ok chain) →
    FirstParents commits range chain

theorem firstParents_of_ok {commits : List CommitSummary} {range : RevRange} {fuel : Nat}
    {chain : List Sha} (ended : firstParentChain fuel commits range = some (.ok chain))
    (once : (visits commits range.fromSha fuel (some range.toSha)).Nodup) :
    FirstParents commits range chain := by
  obtain ⟨rfl, behind, last⟩ := walk_ok ended
  obtain ⟨chained, first⟩ := (visits_isChain :
    (visits commits range.fromSha fuel (some range.toSha)).IsChain _ ∧ _)
  rw [List.nil_append]
  refine ⟨List.nodup_reverse.mpr once, List.isChain_reverse.mpr chained, fun none_ => ?_, ?_, ?_⟩
  · exact (behind (List.reverse_eq_nil_iff.mp none_)).symm
  · intro sha newest
    rw [List.getLast?_reverse] at newest
    exact (Option.some.inj (first sha newest)).symm
  · intro sha oldest
    rw [List.head?_reverse] at oldest
    exact last sha oldest

/-- The walk is what it should be exactly when no commit that it comes to is its own ancestor along first
parents. -/
theorem firstParentChain_walks_iff (commits : List CommitSummary) (range : RevRange) :
    Walks commits range ↔ Acyclic commits range.fromSha range.toSha := by
  constructor
  · rintro ⟨⟨fuel, result, ended⟩, -, -⟩ sha reached cycle
    rw [firstParentChain, walk_cycle (cycle.trans_right reached) cycle] at ended
    cases ended
  · intro acyclic
    obtain ⟨result, ended⟩ := exists_result acyclic
    exact ⟨⟨_, result, ended⟩, visits_nodup acyclic, fun fuel chain returned =>
      firstParents_of_ok returned (visits_nodup acyclic fuel)⟩

/-- A commit that is its own first parent. -/
def selfParent : List CommitSummary := [⟨"a", ["a"], none⟩]

theorem selfParent_does_not_walk : ¬ ∀ commits range, Walks commits range := by
  intro always
  have cycle : Follows selfParent none "a" "a" := ⟨by simp, ⟨"a", ["a"], none⟩, by decide, rfl⟩
  obtain ⟨fuel, result, ended⟩ := (always selfParent ⟨none, "a"⟩).ends
  rw [firstParentChain, walk_cycle (.single cycle) (.single cycle)] at ended
  cases ended

end PrSearch.Graph
