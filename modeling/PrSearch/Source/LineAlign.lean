import Mathlib.Algebra.Ring.Nat
import PrSearch.Source.LineAnchors

/-! # The alignment stays increasing

The ranges that are to come are free boxes, one apart from the other. Whatever a turn pairs lies in the
range that it takes: equal lines at its ends, what a script keeps, or anchors. What is left of the range
between the anchors is free again.
-/
namespace PrSearch.Source.Lines

open Matches EditScript

variable {count stop start : Nat} {scratch : Scratch} {lines : List Nat}

section Runs

variable {same : Nat → Nat → Prop} {n m i j : Nat} {pairs : Matches} {box : Box}

/-- Pairs are recorded in a box, and so many of them. -/
structure Recorded (same : Nat → Nat → Prop) (n m : Nat) (box : Box) (pairs pairs' : Matches)
    (count : Nat) : Prop where
  matching : Matching same n m pairs'
  grown : Grown box pairs pairs'
  size : pairs'.size n = pairs.size n + count

theorem getElem?_behind {α : Type*} (first rest : List α) (k : Nat) :
    (first ++ rest)[first.length + k]? = rest[k]? := by
  rw [List.getElem?_append_right (Nat.le_add_right _ _), Nat.add_sub_cancel_left]

/-- A run of pairs at the start of a box. -/
theorem pairRun_spec {b1 a1 : Nat} (matching : Matching same n m pairs)
    (free : Free pairs ⟨i, b1, j, a1⟩) (withinB : b1 ≤ n) (withinA : a1 ≤ m)
    (roomB : i + count ≤ b1) (roomA : j + count ≤ a1) (like : ∀ k, k < count → same (i + k) (j + k)) :
    Recorded same n m ⟨i, b1, j, a1⟩ pairs (pairRun count i j pairs) count ∧
      Free (pairRun count i j pairs) ⟨i + count, b1, j + count, a1⟩ := by
  induction count generalizing i j pairs with
  | zero => exact ⟨⟨matching, Grown.refl _ _, rfl⟩, free⟩
  | succ count ih =>
    have holds : Box.Holds ⟨i, b1, j, a1⟩ i j :=
      ⟨Nat.le_refl _, by change i < b1; omega, Nat.le_refl _, by change j < a1; omega⟩
    have first : same i j := like 0 (Nat.zero_lt_succ _)
    have belowB : i < n := by omega
    have belowA : j < m := by omega
    obtain ⟨recorded, left⟩ := ih (matching.place free holds first belowB belowA)
      (free_behind free holds) (by omega) (by omega) fun k less => by
        have later := like (k + 1) (by omega)
        rwa [← Nat.add_assoc, ← Nat.add_assoc, Nat.add_right_comm, Nat.add_right_comm j] at later
    refine ⟨⟨recorded.matching, (grown_place holds).trans
      (recorded.grown.of_inside holds.behind_inside), ?_⟩, ?_⟩
    · rw [pairRun, recorded.size, size_place (free.eq_none holds) belowB]
      omega
    · rw [pairRun]
      have endB : i + (count + 1) = i + 1 + count := by omega
      have endA : j + (count + 1) = j + 1 + count := by omega
      rw [endB, endA]
      exact left

/-- What a script keeps is recorded. -/
theorem recordChanges_spec {xs ys : List Nat} {changes : List Change} (script : Script xs ys changes)
    (matching : Matching same n m pairs) (free : Free pairs ⟨i, i + xs.length, j, j + ys.length⟩)
    (withinB : i + xs.length ≤ n) (withinA : j + ys.length ≤ m)
    (like : ∀ k l x, xs[k]? = some x → ys[l]? = some x → same (i + k) (j + l)) :
    Recorded same n m ⟨i, i + xs.length, j, j + ys.length⟩ pairs (recordChanges changes i j pairs)
      (kept changes) := by
  induction script generalizing i j pairs with
  | done => exact ⟨matching, Grown.refl _ _, rfl⟩
  | @add xs ys changes new removed rest ih =>
    rw [List.length_append] at free withinA ⊢
    have inside : Box.Inside ⟨i, i + xs.length, j + new.length, j + new.length + ys.length⟩
        ⟨i, i + xs.length, j, j + (new.length + ys.length)⟩ :=
      ⟨Nat.le_refl _, Nat.le_refl _, Nat.le_add_right _ _, Nat.le_of_eq (Nat.add_assoc _ _ _)⟩
    have recorded := ih matching (free.of_inside inside) withinB (by omega) fun k l x left right => by
      have later := like k (new.length + l) x left (by rwa [getElem?_behind])
      rwa [← Nat.add_assoc] at later
    refine ⟨?_, ?_, ?_⟩
    · simpa [recordChanges] using recorded.matching
    · simpa [recordChanges] using recorded.grown.of_inside inside
    · simpa [recordChanges, kept] using recorded.size
  | @remove xs ys changes old rest ih =>
    rw [List.length_append] at free withinB ⊢
    have inside : Box.Inside ⟨i + old.length, i + old.length + xs.length, j, j + ys.length⟩
        ⟨i, i + (old.length + xs.length), j, j + ys.length⟩ :=
      ⟨Nat.le_add_right _ _, Nat.le_of_eq (Nat.add_assoc _ _ _), Nat.le_refl _, Nat.le_refl _⟩
    have recorded := ih matching (free.of_inside inside) (by omega) withinA fun k l x left right => by
      have later := like (old.length + k) l x (by rwa [getElem?_behind]) right
      rwa [← Nat.add_assoc] at later
    refine ⟨?_, ?_, ?_⟩
    · simpa [recordChanges] using recorded.matching
    · simpa [recordChanges] using recorded.grown.of_inside inside
    · simpa [recordChanges, kept] using recorded.size
  | @keep xs ys changes common rest ih =>
    rw [List.length_append, List.length_append] at free
    rw [List.length_append] at withinB withinA
    rw [List.length_append, List.length_append]
    have roomB : i + common.length ≤ i + (common.length + xs.length) := by omega
    have roomA : j + common.length ≤ j + (common.length + ys.length) := by omega
    obtain ⟨run, left⟩ := pairRun_spec matching free withinB withinA roomB roomA fun k less => by
        have there : common[k]? = some common[k] := List.getElem?_eq_getElem less
        exact like k k common[k] (by rw [List.getElem?_append_left less, there])
          (by rw [List.getElem?_append_left less, there])
    have inside : Box.Inside ⟨i + common.length, i + common.length + xs.length, j + common.length,
        j + common.length + ys.length⟩
        ⟨i, i + (common.length + xs.length), j, j + (common.length + ys.length)⟩ :=
      ⟨Nat.le_add_right _ _, Nat.le_of_eq (Nat.add_assoc _ _ _), Nat.le_add_right _ _,
        Nat.le_of_eq (Nat.add_assoc _ _ _)⟩
    rw [← Nat.add_assoc, ← Nat.add_assoc] at left
    have recorded := ih run.matching left (by omega) (by omega) fun k l x first second => by
      have later := like (common.length + k) (common.length + l) x (by rwa [getElem?_behind])
        (by rwa [getElem?_behind])
      rwa [← Nat.add_assoc, ← Nat.add_assoc] at later
    refine ⟨?_, ?_, ?_⟩
    · simpa [recordChanges] using recorded.matching
    · simpa [recordChanges] using run.grown.trans (recorded.grown.of_inside inside)
    · have size := recorded.size
      rw [run.size] at size
      simp only [recordChanges, Bool.false_eq_true, if_false, kept, Bool.or_self]
      omega

end Runs

/-! ### Ranges -/

/-- The lines of two lists stand behind an offset on both sides of a matching. -/
structure Placed (same : Nat → Nat → Prop) (n m : Nat) (b a : List Nat) (offset : Nat) : Prop where
  withinB : offset + b.length ≤ n
  withinA : offset + a.length ≤ m
  like : ∀ i j, i < b.length → j < a.length → cell b i = cell a j → same (offset + i) (offset + j)

/-- A range where it stands. -/
def shifted (offset : Nat) (box : Box) : Box :=
  ⟨offset + box.b0, offset + box.b1, offset + box.a0, offset + box.a1⟩

/-- A range of the two lists. -/
structure Within (b a : List Nat) (box : Box) : Prop where
  orderB : box.b0 ≤ box.b1
  orderA : box.a0 ≤ box.a1
  endB : box.b1 ≤ b.length
  endA : box.a1 ≤ a.length

section Ranges

variable {same : Nat → Nat → Prop} {n m offset : Nat} {b a : List Nat} {pairs : Matches}
  {box inner other : Box}

theorem inside_shifted (inside : Box.Inside inner box) :
    Box.Inside (shifted offset inner) (shifted offset box) :=
  ⟨Nat.add_le_add_left inside.fromB _, Nat.add_le_add_left inside.toB _,
    Nat.add_le_add_left inside.fromA _, Nat.add_le_add_left inside.toA _⟩

theorem apart_shifted (apart : Box.Apart box other) :
    Box.Apart (shifted offset box) (shifted offset other) := by
  rcases apart with ⟨b, a⟩ | ⟨b, a⟩
  · exact .inl ⟨Nat.add_le_add_left b _, Nat.add_le_add_left a _⟩
  · exact .inr ⟨Nat.add_le_add_left b _, Nat.add_le_add_left a _⟩

theorem holds_shifted {i j : Nat} (holds : box.Holds i j) :
    (shifted offset box).Holds (offset + i) (offset + j) :=
  ⟨Nat.add_le_add_left holds.fromB _, Nat.add_lt_add_left holds.toB _,
    Nat.add_le_add_left holds.fromA _, Nat.add_lt_add_left holds.toA _⟩

/-- Equal lines of a free range can be paired. -/
theorem Placed.place (placed : Placed same n m b a offset) (within : Within b a box)
    (matching : Matching same n m pairs) (free : Free pairs (shifted offset box)) {i j : Nat}
    (holds : box.Holds i j) (equal : cell b i = cell a j) :
    Matching same n m (pairs.place (offset + i) (offset + j)) := by
  have belowB : i < b.length := Nat.lt_of_lt_of_le holds.toB within.endB
  have belowA : j < a.length := Nat.lt_of_lt_of_le holds.toA within.endA
  have endB := placed.withinB
  have endA := placed.withinA
  exact matching.place free (holds_shifted holds) (placed.like i j belowB belowA equal) (by omega)
    (by omega)

/-- What a turn makes of a range: pairs in it, and a part of it that is free still. -/
structure Trimmed (same : Nat → Nat → Prop) (n m : Nat) (b a : List Nat) (offset : Nat) (box : Box)
    (pairs : Matches) (result : Box × Matches) : Prop where
  matching : Matching same n m result.2
  grown : Grown (shifted offset box) pairs result.2
  free : Free result.2 (shifted offset result.1)
  within : Within b a result.1
  inside : Box.Inside result.1 box

theorem trimStart_spec (placed : Placed same n m b a offset) (fuel : Nat) (within : Within b a box)
    (matching : Matching same n m pairs) (free : Free pairs (shifted offset box)) :
    Trimmed same n m b a offset box pairs (trimStart b a offset fuel box pairs) := by
  induction fuel generalizing box pairs with
  | zero => exact ⟨matching, Grown.refl _ _, free, within, Box.Inside.refl _⟩
  | succ fuel ih =>
    rw [trimStart]
    split
    next equal =>
      obtain ⟨lessB, lessA, equal⟩ := equal
      have holds : box.Holds box.b0 box.a0 := ⟨Nat.le_refl _, lessB, Nat.le_refl _, lessA⟩
      have inside : Box.Inside { box with b0 := box.b0 + 1, a0 := box.a0 + 1 } box :=
        ⟨Nat.le_succ _, Nat.le_refl _, Nat.le_succ _, Nat.le_refl _⟩
      have shorter : Within b a { box with b0 := box.b0 + 1, a0 := box.a0 + 1 } :=
        ⟨lessB, lessA, within.endB, within.endA⟩
      have trimmed := ih shorter (placed.place within matching free holds equal)
        (free_behind free (holds_shifted holds))
      exact ⟨trimmed.matching,
        (grown_place (holds_shifted holds)).trans (trimmed.grown.of_inside (inside_shifted inside)),
        trimmed.free, trimmed.within, trimmed.inside.trans inside⟩
    next => exact ⟨matching, Grown.refl _ _, free, within, Box.Inside.refl _⟩

theorem trimEnd_spec (placed : Placed same n m b a offset) (fuel : Nat) (within : Within b a box)
    (matching : Matching same n m pairs) (free : Free pairs (shifted offset box)) :
    Trimmed same n m b a offset box pairs (trimEnd b a offset fuel box pairs) := by
  induction fuel generalizing box pairs with
  | zero => exact ⟨matching, Grown.refl _ _, free, within, Box.Inside.refl _⟩
  | succ fuel ih =>
    rw [trimEnd]
    split
    next equal =>
      obtain ⟨lessB, lessA, equal⟩ := equal
      have holds : box.Holds (box.b1 - 1) (box.a1 - 1) :=
        ⟨by omega, by omega, by omega, by omega⟩
      have inside : Box.Inside { box with b1 := box.b1 - 1, a1 := box.a1 - 1 } box :=
        ⟨Nat.le_refl _, Nat.sub_le _ _, Nat.le_refl _, Nat.sub_le _ _⟩
      have endB := within.endB
      have endA := within.endA
      have shorter : Within b a { box with b1 := box.b1 - 1, a1 := box.a1 - 1 } := by
        constructor <;> simp only [] <;> omega
      have trimmed := ih shorter (placed.place within matching free holds equal)
        (free_before free (holds_shifted holds))
      exact ⟨trimmed.matching,
        (grown_place (holds_shifted holds)).trans (trimmed.grown.of_inside (inside_shifted inside)),
        trimmed.free, trimmed.within, trimmed.inside.trans inside⟩
    next => exact ⟨matching, Grown.refl _ _, free, within, Box.Inside.refl _⟩

end Ranges

/-! ### The gaps between anchors -/

/-- How many lines of the first side a range has. -/
def width (box : Box) : Nat := box.b1 - box.b0

def widths (stack : List Box) : Nat := (stack.map width).sum

/-- A range to come: it has lines, and it is free. -/
structure Open (b a : List Nat) (offset : Nat) (pairs : Matches) (box : Box) : Prop where
  within : Within b a box
  lines : box.b0 < box.b1
  free : Free pairs (shifted offset box)

section Gaps

variable {same : Nat → Nat → Prop} {n m offset : Nat} {b a : List Nat} {pairs : Matches}
  {box gap : Box} {stack : List Box} {gaps : Gaps} {t i j : Nat}

/-- Some anchors have been taken: the gaps before them lie apart, and what is behind them is free. -/
structure GapsOk (same : Nat → Nat → Prop) (n m : Nat) (b a : List Nat) (offset : Nat) (box : Box)
    (pairs : Matches) (stack : List Box) (t : Nat) (gaps : Gaps) : Prop where
  matching : Matching same n m gaps.pairs
  grown : Grown (shifted offset box) pairs gaps.pairs
  rest : Free gaps.pairs (shifted offset ⟨gaps.previousB, box.b1, gaps.previousA, box.a1⟩)
  fromB : box.b0 ≤ gaps.previousB
  fromA : box.a0 ≤ gaps.previousA
  toB : gaps.previousB ≤ box.b1
  toA : gaps.previousA ≤ box.a1
  fresh : ∃ fresh, gaps.stack = fresh ++ stack ∧ fresh.Pairwise Box.Apart ∧
    (∀ gap ∈ fresh, Open b a offset gaps.pairs gap ∧ Box.Inside gap box ∧
      gap.b1 ≤ gaps.previousB ∧ gap.a1 ≤ gaps.previousA) ∧
    widths fresh + t ≤ gaps.previousB - box.b0

/-- The gap before a place becomes a range to come. -/
theorem fresh_addGap {pairs' : Matches} (within : Within b a box)
    (ok : GapsOk same n m b a offset box pairs stack t gaps) (toB : i ≤ box.b1) (toA : j ≤ box.a1)
    (behindB : gaps.previousB ≤ i) (behindA : gaps.previousA ≤ j)
    (kept : ∀ gap, gap.b1 ≤ gaps.previousB → gap.a1 ≤ gaps.previousA →
      Open b a offset gaps.pairs gap → Open b a offset pairs' gap)
    (free : Free pairs' (shifted offset ⟨gaps.previousB, i, gaps.previousA, j⟩)) :
    ∃ fresh, addGap i j gaps = fresh ++ stack ∧ fresh.Pairwise Box.Apart ∧
      (∀ gap ∈ fresh, Open b a offset pairs' gap ∧ Box.Inside gap box ∧ gap.b1 ≤ i ∧ gap.a1 ≤ j) ∧
      widths fresh + t ≤ i - box.b0 := by
  obtain ⟨fresh, is, apart, all, enough⟩ := ok.fresh
  have fromB := ok.fromB
  have fromA := ok.fromA
  have endB := within.endB
  have endA := within.endA
  have all' : ∀ gap ∈ fresh, Open b a offset pairs' gap ∧ Box.Inside gap box ∧ gap.b1 ≤ i ∧
      gap.a1 ≤ j := by
    intro gap member
    obtain ⟨open_, inside, beforeB, beforeA⟩ := all gap member
    exact ⟨kept gap beforeB beforeA open_, inside, Nat.le_trans beforeB behindB,
      Nat.le_trans beforeA behindA⟩
  unfold addGap
  split
  next lines =>
    refine ⟨⟨gaps.previousB, i, gaps.previousA, j⟩ :: fresh, by rw [is, List.cons_append], ?_, ?_, ?_⟩
    · refine List.pairwise_cons.mpr ⟨fun gap member => ?_, apart⟩
      obtain ⟨_, _, beforeB, beforeA⟩ := all gap member
      exact .inr ⟨beforeB, beforeA⟩
    · refine List.forall_mem_cons.mpr ⟨⟨⟨?_, lines.1, free⟩, ?_, Nat.le_refl _, Nat.le_refl _⟩, all'⟩
      · exact ⟨behindB, behindA, Nat.le_trans toB endB, Nat.le_trans toA endA⟩
      · exact ⟨fromB, toB, fromA, toA⟩
    · simp only [widths, List.map_cons, List.sum_cons, width] at enough ⊢
      omega
  next =>
    refine ⟨fresh, is, apart, all', ?_⟩
    omega

/-- An anchor ahead is taken. -/
theorem GapsOk.add (placed : Placed same n m b a offset) (within : Within b a box)
    (ok : GapsOk same n m b a offset box pairs stack t gaps)
    (holds : box.Holds (scratch.pairB (scratch.chain t)) (scratch.pairA (scratch.chain t)))
    (equal : cell b (scratch.pairB (scratch.chain t)) = cell a (scratch.pairA (scratch.chain t)))
    (behindB : gaps.previousB ≤ scratch.pairB (scratch.chain t))
    (behindA : gaps.previousA ≤ scratch.pairA (scratch.chain t)) :
    GapsOk same n m b a offset box pairs stack (t + 1) (addAnchor offset scratch gaps t) := by
  generalize isB : scratch.pairB (scratch.chain t) = i at holds equal behindB
  generalize isA : scratch.pairA (scratch.chain t) = j at holds equal behindA
  have fromB := ok.fromB
  have fromA := ok.fromA
  have rest : Box.Holds ⟨gaps.previousB, box.b1, gaps.previousA, box.a1⟩ i j :=
    ⟨behindB, holds.toB, behindA, holds.toA⟩
  have restWithin : Within b a ⟨gaps.previousB, box.b1, gaps.previousA, box.a1⟩ :=
    ⟨Nat.le_of_lt (Nat.lt_of_le_of_lt behindB holds.toB),
      Nat.le_of_lt (Nat.lt_of_le_of_lt behindA holds.toA), within.endB, within.endA⟩
  have restInside : Box.Inside ⟨gaps.previousB, box.b1, gaps.previousA, box.a1⟩ box :=
    ⟨fromB, Nat.le_refl _, fromA, Nat.le_refl _⟩
  have grown : Grown (shifted offset ⟨gaps.previousB, box.b1, gaps.previousA, box.a1⟩) gaps.pairs
      (gaps.pairs.place (offset + i) (offset + j)) := grown_place (holds_shifted rest)
  have step : addAnchor offset scratch gaps t =
      ⟨gaps.pairs.place (offset + i) (offset + j), addGap i j gaps, i + 1, j + 1⟩ := by
    simp only [addAnchor, isB, isA]
  rw [step]
  refine ⟨placed.place restWithin ok.matching ok.rest rest equal,
    ok.grown.trans (grown.of_inside (inside_shifted restInside)),
    free_behind ok.rest (holds_shifted rest), Nat.le_succ_of_le (Nat.le_trans fromB behindB),
    Nat.le_succ_of_le (Nat.le_trans fromA behindA), holds.toB, holds.toA, ?_⟩
  obtain ⟨fresh, is, apart, all, enough⟩ := fresh_addGap within ok (Nat.le_of_lt holds.toB)
    (Nat.le_of_lt holds.toA) behindB behindA
    (fun gap beforeB beforeA open_ => ⟨open_.within, open_.lines, open_.free.of_grown grown
      (apart_shifted (.inr ⟨beforeB, beforeA⟩))⟩)
    (free_before ok.rest (holds_shifted rest))
  refine ⟨fresh, is, apart, fun gap member => ?_, ?_⟩
  · obtain ⟨open_, inside, beforeB, beforeA⟩ := all gap member
    exact ⟨open_, inside, Nat.le_succ_of_le beforeB, Nat.le_succ_of_le beforeA⟩
  · have := holds.fromB
    change widths fresh + (t + 1) ≤ i + 1 - box.b0
    omega

-- Steps up make a way up.
theorem lt_of_steps {f : Nat → Nat} {length : Nat} (step : ∀ s, s + 1 < length → f s < f (s + 1))
    {s s' : Nat} (less : s < s') (within : s' < length) : f s < f s' := by
  induction s' with
  | zero => exact absurd less (Nat.not_lt_zero _)
  | succ s' ih =>
    have last := step s' within
    by_cases own : s = s'
    · exact own ▸ last
    · exact Nat.lt_trans (ih (by omega) (Nat.lt_of_succ_lt within)) last

/-- Anchors of a range, one behind the other on both sides. -/
structure Anchored (b a : List Nat) (box : Box) (scratch : Scratch) (anchors : Nat) : Prop where
  holds : ∀ t, t < anchors →
    box.Holds (scratch.pairB (scratch.chain t)) (scratch.pairA (scratch.chain t))
  equal : ∀ t, t < anchors →
    cell b (scratch.pairB (scratch.chain t)) = cell a (scratch.pairA (scratch.chain t))
  stepB : ∀ t, t + 1 < anchors →
    scratch.pairB (scratch.chain t) < scratch.pairB (scratch.chain (t + 1))
  stepA : ∀ t, t + 1 < anchors →
    scratch.pairA (scratch.chain t) < scratch.pairA (scratch.chain (t + 1))

theorem gapsOk_foldl {anchors : Nat} (placed : Placed same n m b a offset) (within : Within b a box)
    (anchored : Anchored b a box scratch anchors) (matching : Matching same n m pairs)
    (free : Free pairs (shifted offset box)) (stack : List Box) :
    ∀ t, t ≤ anchors →
      GapsOk same n m b a offset box pairs stack t
        ((List.range t).foldl (addAnchor offset scratch) ⟨pairs, stack, box.b0, box.a0⟩) ∧
      ∀ t', t ≤ t' → t' < anchors →
        ((List.range t).foldl (addAnchor offset scratch)
          ⟨pairs, stack, box.b0, box.a0⟩).previousB ≤ scratch.pairB (scratch.chain t') ∧
        ((List.range t).foldl (addAnchor offset scratch)
          ⟨pairs, stack, box.b0, box.a0⟩).previousA ≤ scratch.pairA (scratch.chain t') := by
  intro t
  induction t with
  | zero =>
    intro _
    refine ⟨⟨matching, Grown.refl _ _, free, Nat.le_refl _, Nat.le_refl _, within.orderB,
      within.orderA, [], rfl, List.Pairwise.nil, fun _ member => (nomatch member), by simp [widths]⟩, ?_⟩
    intro t' _ less
    exact ⟨(anchored.holds t' less).fromB, (anchored.holds t' less).fromA⟩
  | succ t ih =>
    intro more
    obtain ⟨ok, ahead⟩ := ih (Nat.le_of_succ_le more)
    obtain ⟨behindB, behindA⟩ := ahead t (Nat.le_refl _) more
    rw [List.range_succ, List.foldl_append, List.foldl_cons, List.foldl_nil]
    refine ⟨ok.add placed within (anchored.holds t more) (anchored.equal t more) behindB behindA, ?_⟩
    intro t' from_ less
    exact ⟨lt_of_steps anchored.stepB from_ less, lt_of_steps anchored.stepA from_ less⟩

end Gaps

/-! ### Turns -/

section Turns

variable {same : Nat → Nat → Prop} {n m offset workCap : Nat} {b a : List Nat} {box : Box}
  {s : AlignState} {outside : Outside} {gapDeadline : Int}

structure AlignOk (same : Nat → Nat → Prop) (n m : Nat) (b a : List Nat) (offset : Nat)
    (s : AlignState) : Prop where
  matching : Matching same n m s.pairs
  open_ : ∀ box ∈ s.stack, Open b a offset s.pairs box
  apart : s.stack.Pairwise Box.Apart
  clean : ∀ id, s.scratch.countA id = 0

/-- A turn leaves the rest of the stack as it is, and puts parts of its range on top. -/
structure Turned (same : Nat → Nat → Prop) (n m : Nat) (b a : List Nat) (offset : Nat) (box : Box)
    (s s' : AlignState) : Prop where
  matching : Matching same n m s'.pairs
  grown : Grown (shifted offset box) s.pairs s'.pairs
  clean : ∀ id, s'.scratch.countA id = 0
  fresh : ∃ fresh, s'.stack = fresh ++ s.stack ∧ fresh.Pairwise Box.Apart ∧
    (∀ gap ∈ fresh, Open b a offset s'.pairs gap ∧ Box.Inside gap box) ∧ widths fresh < width box

theorem Turned.rebase {s₀ s' : AlignState} (turned : Turned same n m b a offset box s s')
    (pairs : s.pairs = s₀.pairs) (stack : s.stack = s₀.stack) :
    Turned same n m b a offset box s₀ s' where
  matching := turned.matching
  grown := pairs ▸ turned.grown
  clean := turned.clean
  fresh := stack ▸ turned.fresh

-- A turn that leaves nothing to come.
theorem turned_of_same_stack {s' : AlignState} (matching : Matching same n m s'.pairs)
    (grown : Grown (shifted offset box) s.pairs s'.pairs)
    (clean : ∀ id, s'.scratch.countA id = 0) (stack : s'.stack = s.stack) (lines : box.b0 < box.b1) :
    Turned same n m b a offset box s s' where
  matching := matching
  grown := grown
  clean := clean
  fresh := ⟨[], stack, List.Pairwise.nil, fun _ member => (nomatch member), by
    simp only [widths, List.map_nil, List.sum_nil, width]
    omega⟩

theorem length_slice (start : Nat) (within : stop ≤ lines.length) :
    (slice lines start stop).length = stop - start := by
  rw [slice, List.length_take, List.length_drop]
  omega

theorem cell_of_slice {k x : Nat} (found : (slice lines start stop)[k]? = some x) :
    start + k < lines.length ∧ cell lines (start + k) = x := by
  have inside : lines[start + k]? = some x := by
    rw [slice, List.getElem?_take] at found
    split at found
    · rwa [List.getElem?_drop] at found
    · cases found
  obtain ⟨less, is⟩ := List.getElem?_eq_some_iff.mp inside
  exact ⟨less, by rw [cell, List.getD_eq_getElem?_getD, inside, Option.getD_some]⟩

theorem turned_alignGap (placed : Placed same n m b a offset)
    (spec : ∀ call xs ys options changes,
      outside.diffArrays call xs ys options = some changes → Shortest xs ys changes)
    (within : Within b a box) (lines : box.b0 < box.b1) (matching : Matching same n m s.pairs)
    (free : Free s.pairs (shifted offset box)) (clean : ∀ id, s.scratch.countA id = 0)
    (common : Bool) :
    Turned same n m b a offset box s (alignGap b a offset outside gapDeadline box common s) := by
  unfold alignGap
  simp only []
  split
  next => exact turned_of_same_stack matching (Grown.refl _ _) clean rfl lines
  next =>
    split
    next => exact turned_of_same_stack matching (Grown.refl _ _) clean rfl lines
    next changes found =>
      have script := (spec _ _ _ _ _ found).script
      have lengthB := length_slice box.b0 within.endB
      have lengthA := length_slice box.a0 within.endA
      have orderB := within.orderB
      have orderA := within.orderA
      have endB := within.endB
      have endA := within.endA
      have place : (⟨offset + box.b0, offset + box.b0 + (slice b box.b0 box.b1).length,
          offset + box.a0, offset + box.a0 + (slice a box.a0 box.a1).length⟩ : Box) =
            shifted offset box := by
        rw [lengthB, lengthA, shifted]
        congr 1 <;> omega
      have withinB := placed.withinB
      have withinA := placed.withinA
      have recorded := recordChanges_spec script matching (by rwa [place])
        (by rw [lengthB]; omega) (by rw [lengthA]; omega) fun k l x left right => by
          obtain ⟨lessB, isB⟩ := cell_of_slice left
          obtain ⟨lessA, isA⟩ := cell_of_slice right
          have like := placed.like _ _ lessB lessA (isB.trans isA.symm)
          rwa [← Nat.add_assoc, ← Nat.add_assoc] at like
      rw [place] at recorded
      exact turned_of_same_stack recorded.matching recorded.grown clean rfl lines

theorem mem_places {i : Nat} : i ∈ places start stop ↔ start ≤ i ∧ i < stop := by
  rw [places, List.mem_range'_1]
  omega

/-- What is collected of a range are anchors, whichever increasing run of it is taken. -/
theorem anchored_longestIncreasing (some_ : 0 < count)
    (holds : ∀ k, k < count → box.Holds (scratch.pairB k) (scratch.pairA k))
    (equal : ∀ k, k < count → cell b (scratch.pairB k) = cell a (scratch.pairA k))
    (increasing : ∀ k k', k < k' → k' < count → scratch.pairB k < scratch.pairB k') :
    0 < (longestIncreasing scratch.pairA count scratch).1 ∧
      Anchored b a box (longestIncreasing scratch.pairA count scratch).2
        (longestIncreasing scratch.pairA count scratch).1 := by
  obtain ⟨positive, climbs⟩ := longestIncreasing_spec scratch.pairA scratch some_
  have below : ∀ t, t < (longestIncreasing scratch.pairA count scratch).1 →
      (longestIncreasing scratch.pairA count scratch).2.chain t < count := by
    intro t less
    have := climbs.below t less
    omega
  exact ⟨positive, fun t less => holds _ (below t less), fun t less => equal _ (below t less),
    fun t less => increasing _ _ (climbs.index t less) (below _ less),
    fun t less => climbs.value t less⟩

theorem turned_alignAnchors (placed : Placed same n m b a offset) (within : Within b a box)
    (lines : box.b0 < box.b1) (matching : Matching same n m s.pairs)
    (free : Free s.pairs (shifted offset box)) (clean : ∀ id, s.scratch.countA id = 0)
    (some_ : 0 < count) (holds : ∀ k, k < count → box.Holds (s.scratch.pairB k) (s.scratch.pairA k))
    (equal : ∀ k, k < count → cell b (s.scratch.pairB k) = cell a (s.scratch.pairA k))
    (increasing : ∀ k k', k < k' → k' < count → s.scratch.pairB k < s.scratch.pairB k') :
    Turned same n m b a offset box s (alignAnchors offset box count s) := by
  obtain ⟨positive, anchored⟩ := anchored_longestIncreasing some_ holds equal increasing
  obtain ⟨ok, _⟩ := gapsOk_foldl placed within anchored matching free s.stack _
    (Nat.le_refl _)
  simp only [alignAnchors]
  generalize (List.range (longestIncreasing s.scratch.pairA count s.scratch).1).foldl
    (addAnchor offset (longestIncreasing s.scratch.pairA count s.scratch).2)
    ⟨s.pairs, s.stack, box.b0, box.a0⟩ = gaps at ok ⊢
  obtain ⟨fresh, is, apart, all, enough⟩ := fresh_addGap within ok (Nat.le_refl _) (Nat.le_refl _)
    ok.toB ok.toA (fun _ _ _ open_ => open_) ok.rest
  refine ⟨ok.matching, ok.grown, clean, fresh, is, apart, fun gap member => ?_, ?_⟩
  · obtain ⟨open_, inside, _⟩ := all gap member
    exact ⟨open_, inside⟩
  · rw [width]
    omega

theorem turned_alignRange (s : AlignState) (gapDeadline : Int) (placed : Placed same n m b a offset)
    (spec : ∀ call xs ys options changes,
      outside.diffArrays call xs ys options = some changes → Shortest xs ys changes)
    (within : Within b a box) (lines : box.b0 < box.b1) (matching : Matching same n m s.pairs)
    (free : Free s.pairs (shifted offset box)) (clean : ∀ id, s.scratch.countA id = 0) :
    Turned same n m b a offset box s (alignRange b a offset outside gapDeadline box s) := by
  have collected := collected_collectPairs b (countRange b a box s.scratch) within.orderB
  have cleared : ∀ id, clearLines a (places box.a0 box.a1)
      (countRange b a box s.scratch).countA id = 0 := fun id => clearLines_countLines clean
  simp only [alignRange]
  generalize collectPairs b (countRange b a box s.scratch) (places box.b0 box.b1) = found
    at collected ⊢
  obtain ⟨count, pairB, pairA⟩ := found
  -- a line that occurs on the other side has a position there
  have there : ∀ k, k < count → pairA k ∈ places box.a0 box.a1 ∧ cell a (pairA k) = cell b (pairB k) := by
    intro k less
    obtain ⟨once, position⟩ := collected.once k less
    simp only [countRange, countLines_eq, clean, Nat.zero_add] at once
    obtain ⟨j, inside, is⟩ := List.countP_pos_iff.mp (by omega : 0 <
      (places box.a0 box.a1).countP fun j => cell a j = cell b (pairB k))
    have is : cell a j = cell b (pairB k) := by simpa using is
    have noted := notePositions_spec a s.scratch.positionA inside
    rw [is] at noted
    simp only [countRange] at position
    rw [position]
    exact noted
  split
  next =>
    refine Turned.rebase (turned_alignGap placed spec within lines ?_ ?_ ?_ _) rfl rfl
    · exact matching
    · exact free
    · exact cleared
  next some_ =>
    refine Turned.rebase (turned_alignAnchors placed within lines matching free cleared
      (Nat.pos_of_ne_zero some_) (fun k less => ?_) (fun k less => (there k less).2.symm)
      collected.increasing) rfl rfl
    obtain ⟨fromB, toB⟩ := collected.place k less
    obtain ⟨fromA, toA⟩ := mem_places.mp (there k less).1
    exact ⟨fromB, toB, fromA, toA⟩

theorem turned_alignStep (s : AlignState) (workCap : Nat) (gapDeadline : Int) (placed : Placed same n m b a offset)
    (spec : ∀ call xs ys options changes,
      outside.diffArrays call xs ys options = some changes → Shortest xs ys changes)
    (open_ : Open b a offset s.pairs box) (matching : Matching same n m s.pairs)
    (clean : ∀ id, s.scratch.countA id = 0) :
    Turned same n m b a offset box s (alignStep b a offset outside workCap gapDeadline box s) := by
  have start := trimStart_spec placed (box.b1 - box.b0) open_.within matching open_.free
  simp only [alignStep]
  generalize trimStart b a offset (box.b1 - box.b0) box s.pairs = first at start ⊢
  obtain ⟨box₁, pairs₁⟩ := first
  have last := trimEnd_spec placed (box₁.b1 - box₁.b0) start.within start.matching start.free
  simp only []
  generalize trimEnd b a offset (box₁.b1 - box₁.b0) box₁ pairs₁ = second at last ⊢
  obtain ⟨box₂, pairs₂⟩ := second
  have inside : Box.Inside box₂ box := last.inside.trans start.inside
  have grown : Grown (shifted offset box) s.pairs pairs₂ :=
    start.grown.trans (last.grown.of_inside (inside_shifted start.inside))
  simp only []
  split
  next => exact turned_of_same_stack last.matching grown clean rfl open_.lines
  next left =>
    split
    next => exact turned_of_same_stack last.matching grown clean rfl open_.lines
    next =>
      have lines : box₂.b0 < box₂.b1 := by
        have order : box₂.b0 ≤ box₂.b1 := last.within.orderB
        simp only [not_or] at left
        omega
      have turned := turned_alignRange
        { s with
          pairs := pairs₂
          work := s.work + (box₂.b1 - box₂.b0 + (box₂.a1 - box₂.a0)) }
        gapDeadline placed spec last.within lines last.matching last.free clean
      obtain ⟨fresh, is, apart, all, less⟩ := turned.fresh
      refine ⟨turned.matching, grown.trans (turned.grown.of_inside (inside_shifted inside)),
        turned.clean, fresh, is, apart, fun gap member => ?_, Nat.lt_of_lt_of_le less ?_⟩
      · exact ⟨(all gap member).1, (all gap member).2.trans inside⟩
      · have := inside.fromB
        have := inside.toB
        simp only [width]
        omega

end Turns

/-! ### The loop -/

section Loop

variable {same : Nat → Nat → Prop} {n m offset workCap : Nat} {b a : List Nat} {box : Box}
  {s s' : AlignState} {outside : Outside} {gapDeadline : Int}

theorem width_le_widths {stack : List Box} (member : box ∈ stack) : width box ≤ widths stack := by
  induction stack with
  | nil => cases member
  | cons first stack ih =>
    simp only [widths, List.map_cons, List.sum_cons] at ih ⊢
    rcases List.mem_cons.mp member with rfl | later
    · omega
    · have := ih later
      omega

/-- A turn keeps the ranges apart and free. -/
theorem AlignOk.turn {rest : List Box} (ok : AlignOk same n m b a offset s)
    (stack : s.stack = box :: rest)
    (turned : Turned same n m b a offset box { s with stack := rest } s') :
    AlignOk same n m b a offset s' ∧ widths s'.stack < widths s.stack := by
  have open_ := ok.open_
  have apart := ok.apart
  rw [stack] at open_ apart
  rw [List.forall_mem_cons] at open_
  obtain ⟨apartBox, apartRest⟩ := List.pairwise_cons.mp apart
  obtain ⟨fresh, is, freshApart, all, less⟩ := turned.fresh
  refine ⟨⟨turned.matching, ?_, ?_, turned.clean⟩, ?_⟩
  · rw [is]
    intro other member
    rcases List.mem_append.mp member with new | old
    · exact (all other new).1
    · have was := open_.2 other old
      exact ⟨was.within, was.lines, was.free.of_grown turned.grown (apart_shifted (apartBox other old))⟩
  · rw [is]
    refine List.pairwise_append.mpr ⟨freshApart, apartRest, fun gap new other old => ?_⟩
    exact (apartBox other old).of_inside (all gap new).2
  · rw [is, stack]
    simp only [widths, List.map_append, List.sum_append, List.map_cons, List.sum_cons] at less ⊢
    omega

/-- The loop keeps the pairs increasing, and it comes to its end. -/
theorem alignLoop_spec (placed : Placed same n m b a offset)
    (spec : ∀ call xs ys options changes,
      outside.diffArrays call xs ys options = some changes → Shortest xs ys changes)
    {fuel : Nat} (ok : AlignOk same n m b a offset s) (enough : widths s.stack ≤ fuel) :
    Matching same n m (alignLoop b a offset outside workCap gapDeadline fuel s).pairs ∧
      (alignLoop b a offset outside workCap gapDeadline fuel s).stack = [] := by
  induction fuel generalizing s with
  | zero =>
    refine ⟨ok.matching, List.eq_nil_iff_forall_not_mem.mpr fun box member => ?_⟩
    have lines := (ok.open_ box member).lines
    have part : width box ≤ widths s.stack := width_le_widths member
    simp only [width] at part
    omega
  | succ fuel ih =>
    rw [alignLoop]
    split
    next empty => exact ⟨ok.matching, empty⟩
    next box rest stack =>
      have open_ := ok.open_ box (by rw [stack]; exact List.mem_cons_self)
      have turned := turned_alignStep { s with stack := rest } workCap gapDeadline placed spec open_ ok.matching ok.clean
      obtain ⟨kept, less⟩ := ok.turn stack turned
      exact ih kept (by omega)

theorem anchorAlign_spec {pairs : Matches} {calls : Nat} (placed : Placed same n m b a offset)
    (spec : ∀ call xs ys options changes,
      outside.diffArrays call xs ys options = some changes → Shortest xs ys changes)
    (lines : 0 < b.length) (matching : Matching same n m pairs)
    (free : Free pairs (shifted offset ⟨0, b.length, 0, a.length⟩)) :
    Matching same n m (anchorAlign outside b a offset pairs calls).pairs ∧
      (anchorAlign outside b a offset pairs calls).stack = [] := by
  have whole : Within b a ⟨0, b.length, 0, a.length⟩ :=
    ⟨Nat.zero_le _, Nat.zero_le _, Nat.le_refl _, Nat.le_refl _⟩
  refine alignLoop_spec placed spec ⟨matching, ?_, List.pairwise_singleton _ _, fun _ => rfl⟩ ?_
  · intro box member
    rw [List.mem_singleton.mp member]
    exact ⟨whole, lines, free⟩
  · simp [widths, width]

end Loop

end PrSearch.Source.Lines
