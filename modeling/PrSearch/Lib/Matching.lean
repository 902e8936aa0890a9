import Mathlib.Logic.Function.Basic
import Mathlib.Data.List.Basic

/-! # Increasing matches between two sequences

A matching pairs places of one sequence with places of another, the greater with the greater. A box is
a stretch of each sequence; it is free when all pairs lie before it or after it. Two places of a free box
can be paired, and what is left of the box before them and behind them is free again.
-/

/-- The place that is paired with a place, if there is one. -/
abbrev Matches := Nat → Option Nat

/-- The places from `b0` up to `b1` and those from `a0` up to `a1`. -/
structure Box where
  b0 : Nat
  b1 : Nat
  a0 : Nat
  a1 : Nat

namespace Box

/-- The pair lies in the box. -/
structure Holds (box : Box) (i j : Nat) : Prop where
  fromB : box.b0 ≤ i
  toB : i < box.b1
  fromA : box.a0 ≤ j
  toA : j < box.a1

/-- One box lies before the other. -/
def Apart (box other : Box) : Prop :=
  (box.b1 ≤ other.b0 ∧ box.a1 ≤ other.a0) ∨ (other.b1 ≤ box.b0 ∧ other.a1 ≤ box.a0)

/-- A box inside of another one. -/
structure Inside (box other : Box) : Prop where
  fromB : other.b0 ≤ box.b0
  toB : box.b1 ≤ other.b1
  fromA : other.a0 ≤ box.a0
  toA : box.a1 ≤ other.a1

variable {box inner other : Box} {i j : Nat}

theorem Inside.refl (box : Box) : Inside box box := ⟨Nat.le_refl _, Nat.le_refl _, Nat.le_refl _,
  Nat.le_refl _⟩

theorem Inside.trans {outer : Box} (first : Inside inner box) (second : Inside box outer) :
    Inside inner outer :=
  ⟨Nat.le_trans second.fromB first.fromB, Nat.le_trans first.toB second.toB,
    Nat.le_trans second.fromA first.fromA, Nat.le_trans first.toA second.toA⟩

theorem Holds.of_inside (holds : Holds inner i j) (inside : Inside inner box) : Holds box i j :=
  ⟨Nat.le_trans inside.fromB holds.fromB, Nat.lt_of_lt_of_le holds.toB inside.toB,
    Nat.le_trans inside.fromA holds.fromA, Nat.lt_of_lt_of_le holds.toA inside.toA⟩

theorem Apart.of_inside (apart : Apart box other) (inside : Inside inner box) : Apart inner other := by
  rcases apart with ⟨b, a⟩ | ⟨b, a⟩
  · exact .inl ⟨Nat.le_trans inside.toB b, Nat.le_trans inside.toA a⟩
  · exact .inr ⟨Nat.le_trans b inside.fromB, Nat.le_trans a inside.fromA⟩

/-- What is left of a box before a pair. -/
def before (box : Box) (i j : Nat) : Box := ⟨box.b0, i, box.a0, j⟩

/-- What is left of a box behind a pair. -/
def behind (box : Box) (i j : Nat) : Box := ⟨i + 1, box.b1, j + 1, box.a1⟩

theorem Holds.before_inside (holds : Holds box i j) : Inside (box.before i j) box :=
  ⟨Nat.le_refl _, Nat.le_of_lt holds.toB, Nat.le_refl _, Nat.le_of_lt holds.toA⟩

theorem Holds.behind_inside (holds : Holds box i j) : Inside (box.behind i j) box :=
  ⟨Nat.le_succ_of_le holds.fromB, Nat.le_refl _, Nat.le_succ_of_le holds.fromA, Nat.le_refl _⟩

end Box

namespace Matches

/-- Pairs of like places below the lengths, the greater with the greater. -/
structure Matching (same : Nat → Nat → Prop) (n m : Nat) (pairs : Matches) : Prop where
  below : ∀ i j, pairs i = some j → i < n ∧ j < m
  like : ∀ i j, pairs i = some j → same i j
  increasing : ∀ i i' j j', i < i' → pairs i = some j → pairs i' = some j' → j < j'

/-- No pair lies in the box, or across it. -/
def Free (pairs : Matches) (box : Box) : Prop :=
  ∀ i j, pairs i = some j → (i < box.b0 ∧ j < box.a0) ∨ (box.b1 ≤ i ∧ box.a1 ≤ j)

/-- Nothing has been paired anew but in the box. -/
def Grown (box : Box) (pairs pairs' : Matches) : Prop :=
  ∀ i j, pairs' i = some j → pairs i = some j ∨ box.Holds i j

def place (pairs : Matches) (i j : Nat) : Matches := Function.update pairs i (some j)

/-- How many of the first places are paired. -/
def size (pairs : Matches) : Nat → Nat
  | 0 => 0
  | n + 1 => pairs.size n + if (pairs n).isSome then 1 else 0

variable {same : Nat → Nat → Prop} {n m i j : Nat} {pairs pairs' pairs'' : Matches}
  {box inner other : Box}

@[simp] theorem place_self : pairs.place i j i = some j := Function.update_self _ _ _

variable {i' count : Nat}

theorem place_of_ne (other : i' ≠ i) : pairs.place i j i' = pairs i' :=
  Function.update_of_ne other _ _

theorem place_eq_some {j' : Nat} (paired : pairs.place i j i' = some j') :
    (i' = i ∧ j' = j) ∨ pairs i' = some j' := by
  by_cases own : i' = i
  · subst own
    exact .inl ⟨rfl, (Option.some.inj (place_self.symm.trans paired)).symm⟩
  · exact .inr ((place_of_ne own).symm.trans paired)

/-! ### Free boxes -/

theorem Free.of_inside (free : Free pairs box) (inside : Box.Inside inner box) :
    Free pairs inner := by
  intro i j paired
  rcases free i j paired with ⟨b, a⟩ | ⟨b, a⟩
  · exact .inl ⟨Nat.lt_of_lt_of_le b inside.fromB, Nat.lt_of_lt_of_le a inside.fromA⟩
  · exact .inr ⟨Nat.le_trans inside.toB b, Nat.le_trans inside.toA a⟩

/-- A box is free still when the new pairs are in another one. -/
theorem Free.of_grown (free : Free pairs other) (grown : Grown box pairs pairs')
    (apart : Box.Apart box other) : Free pairs' other := by
  intro i j paired
  rcases grown i j paired with old | new
  · exact free i j old
  · rcases apart with ⟨b, a⟩ | ⟨b, a⟩
    · exact .inl ⟨Nat.lt_of_lt_of_le new.toB b, Nat.lt_of_lt_of_le new.toA a⟩
    · exact .inr ⟨Nat.le_trans b new.fromB, Nat.le_trans a new.fromA⟩

theorem Free.eq_none (free : Free pairs box) (holds : box.Holds i j) : pairs i = none := by
  refine Option.eq_none_iff_forall_ne_some.mpr fun j' paired => ?_
  rcases free i j' paired with ⟨b, _⟩ | ⟨b, _⟩
  · exact absurd holds.fromB (Nat.not_le.mpr b)
  · exact absurd holds.toB (Nat.not_lt.mpr b)

theorem Grown.refl (box : Box) (pairs : Matches) : Grown box pairs pairs := fun _ _ paired => .inl paired

theorem Grown.trans (first : Grown box pairs pairs') (second : Grown box pairs' pairs'') :
    Grown box pairs pairs'' := by
  intro i j paired
  rcases second i j paired with old | new
  · exact first i j old
  · exact .inr new

theorem Grown.of_inside (grown : Grown inner pairs pairs') (inside : Box.Inside inner box) :
    Grown box pairs pairs' :=
  fun i j paired => (grown i j paired).imp_right fun holds => holds.of_inside inside

/-! ### A new pair -/

theorem grown_place (holds : box.Holds i j) : Grown box pairs (pairs.place i j) := by
  intro i' j' paired
  rcases place_eq_some paired with ⟨rfl, rfl⟩ | old
  · exact .inr holds
  · exact .inl old

/-- Like places of a free box can be paired. -/
theorem Matching.place (matching : Matching same n m pairs) (free : Free pairs box)
    (holds : box.Holds i j) (like : same i j) (belowB : i < n) (belowA : j < m) :
    Matching same n m (pairs.place i j) where
  below i' j' paired := by
    rcases place_eq_some paired with ⟨rfl, rfl⟩ | old
    · exact ⟨belowB, belowA⟩
    · exact matching.below i' j' old
  like i' j' paired := by
    rcases place_eq_some paired with ⟨rfl, rfl⟩ | old
    · exact like
    · exact matching.like i' j' old
  increasing i₁ i₂ j₁ j₂ less paired₁ paired₂ := by
    have fromB := holds.fromB
    have toB := holds.toB
    have fromA := holds.fromA
    have toA := holds.toA
    rcases place_eq_some paired₁ with ⟨rfl, rfl⟩ | old₁ <;>
      rcases place_eq_some paired₂ with ⟨rfl, rfl⟩ | old₂
    · exact absurd less (Nat.lt_irrefl _)
    · have := free i₂ j₂ old₂
      omega
    · have := free i₁ j₁ old₁
      omega
    · exact matching.increasing i₁ i₂ j₁ j₂ less old₁ old₂

theorem free_before (free : Free pairs box) (holds : box.Holds i j) :
    Free (pairs.place i j) (box.before i j) := by
  intro i' j' paired
  rcases place_eq_some paired with ⟨rfl, rfl⟩ | old
  · exact .inr ⟨Nat.le_refl _, Nat.le_refl _⟩
  · exact free.of_inside holds.before_inside i' j' old

theorem free_behind (free : Free pairs box) (holds : box.Holds i j) :
    Free (pairs.place i j) (box.behind i j) := by
  intro i' j' paired
  rcases place_eq_some paired with ⟨rfl, rfl⟩ | old
  · exact .inl ⟨Nat.lt_succ_self _, Nat.lt_succ_self _⟩
  · exact free.of_inside holds.behind_inside i' j' old

/-! ### How many places are paired -/

theorem size_place_of_le (below : n ≤ i) : (pairs.place i j).size n = pairs.size n := by
  induction n with
  | zero => rfl
  | succ n ih =>
    have other : n ≠ i := Nat.ne_of_lt below
    rw [size, size, ih (Nat.le_of_succ_le below), place_of_ne other]

theorem size_place (none : pairs i = none) (below : i < n) :
    (pairs.place i j).size n = pairs.size n + 1 := by
  induction n with
  | zero => exact absurd below (Nat.not_lt_zero _)
  | succ n ih =>
    by_cases own : n = i
    · subst own
      rw [size, size, size_place_of_le (Nat.le_refl _), place_self, none]
      simp
    · have less : i < n := by omega
      rw [size, size, ih less, place_of_ne own]
      omega

theorem size_add_of_some (all : ∀ i, n ≤ i → i < n + count → (pairs i).isSome) :
    pairs.size (n + count) = pairs.size n + count := by
  induction count with
  | zero => rfl
  | succ count ih =>
    have last := all (n + count) (Nat.le_add_right _ _) (Nat.lt_succ_self _)
    rw [← Nat.add_assoc, size, ih fun i from_ less => all i from_ (Nat.lt_succ_of_lt less), last]
    simp only [if_true]
    omega

theorem size_add_of_none (all : ∀ i, n ≤ i → i < n + count → pairs i = none) :
    pairs.size (n + count) = pairs.size n := by
  induction count with
  | zero => rfl
  | succ count ih =>
    have last := all (n + count) (Nat.le_add_right _ _) (Nat.lt_succ_self _)
    rw [← Nat.add_assoc, size, ih fun i from_ less => all i from_ (Nat.lt_succ_of_lt less), last]
    simp

end Matches
