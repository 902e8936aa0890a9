import PrSearch.Source.LineDiff

/-! # Rows from pairs

Rows that are made from increasing pairs go through the lines of each side in order, leave none out and
repeat none. Each pair is an equal row, and a row of a change has a line on some side.
-/
namespace PrSearch.Source.Lines

open Matches

section ChangeRows

variable {b a removed added : Nat}

theorem filterMap_range_lt (first : Nat) {count total : Nat} (within : count ≤ total) :
    (List.range total).filterMap (fun j => if j < count then some (first + j) else none) =
      List.range' first count := by
  induction count generalizing first total with
  | zero => simp
  | succ count ih =>
    cases total with
    | zero => exact absurd within (Nat.not_succ_le_zero _)
    | succ total =>
      have later := ih (first + 1) (Nat.le_of_succ_le_succ within)
      rw [List.range_succ_eq_map, List.filterMap_cons, List.filterMap_map, List.range'_succ]
      simp only [Nat.zero_lt_succ, if_true, Nat.add_zero]
      rw [← later]
      congr 1
      refine List.filterMap_congr fun j _ => ?_
      have shifted : first + (j + 1) = first + 1 + j := by omega
      simp only [Function.comp_apply, Nat.succ_eq_add_one, Nat.add_lt_add_iff_right, shifted]

theorem before_changeRows :
    (changeRows b a removed added).filterMap Row.before = List.range' b removed := by
  rw [changeRows, List.filterMap_map]
  exact filterMap_range_lt _ (Nat.le_max_left _ _)

theorem after_changeRows :
    (changeRows b a removed added).filterMap Row.after = List.range' a added := by
  rw [changeRows, List.filterMap_map]
  exact filterMap_range_lt _ (Nat.le_max_right _ _)

theorem of_mem_changeRows {row : Row} (inside : row ∈ changeRows b a removed added) :
    row.kind = .change ∧ (row.before ≠ none ∨ row.after ≠ none) := by
  obtain ⟨j, within, rfl⟩ := List.mem_map.mp inside
  refine ⟨rfl, ?_⟩
  have some_ : j < removed ∨ j < added := by
    have := List.mem_range.mp within
    omega
  rcases some_ with less | less
  · exact .inl (by simp [less])
  · exact .inr (by simp [less])

theorem countP_changeRows :
    (changeRows b a removed added).countP (fun row => row.kind = .equal) = 0 := by
  refine List.countP_eq_zero.mpr fun row inside => ?_
  simp [(of_mem_changeRows inside).1]

end ChangeRows

section Rows

variable {same : Nat → Nat → Prop} {pairs : Matches} {n m rest i b a : Nat}

/-- What is left from line `i` on, when the rows have come up to `b` and `a`. -/
structure Left (pairs : Matches) (n m rest i b a : Nat) : Prop where
  lines : i + rest = n
  start : b ≤ i
  unpaired : ∀ k, b ≤ k → k < i → pairs k = none
  later : ∀ k j, i ≤ k → pairs k = some j → a ≤ j
  within : a ≤ m

theorem Left.skip (left : Left pairs n m (rest + 1) i b a) (none : pairs i = none) :
    Left pairs n m rest (i + 1) b a where
  lines := by
    have := left.lines
    omega
  start := Nat.le_succ_of_le left.start
  unpaired k from_ less := by
    by_cases own : k = i
    · exact own ▸ none
    · exact left.unpaired k from_ (by omega)
  later k j from_ paired := left.later k j (Nat.le_of_succ_le from_) paired
  within := left.within

theorem Left.pair {j : Nat} (matching : Matching same n m pairs)
    (left : Left pairs n m (rest + 1) i b a) (paired : pairs i = some j) :
    Left pairs n m rest (i + 1) (i + 1) (j + 1) where
  lines := by
    have := left.lines
    omega
  start := Nat.le_refl _
  unpaired k from_ less := absurd less (Nat.not_lt.mpr from_)
  later k j' from_ paired' := matching.increasing i k j j' from_ paired paired'
  within := (matching.below i j paired).2

theorem before_rowsFrom (matching : Matching same n m pairs) (left : Left pairs n m rest i b a) :
    (rowsFrom pairs n m rest i b a).filterMap Row.before = List.range' b (n - b) := by
  induction rest generalizing i b a with
  | zero => exact before_changeRows
  | succ rest ih =>
    rw [rowsFrom]
    split
    next none => exact ih (left.skip none)
    next j paired =>
      have lines := left.lines
      have start := left.start
      rw [List.filterMap_append, before_changeRows, List.filterMap_cons, ih (left.pair matching paired)]
      have split_ : n - b = (i - b) + ((n - (i + 1)) + 1) := by omega
      have next_ : b + (i - b) = i := by omega
      rw [split_, List.range'_append_1.symm, next_, List.range'_succ]

theorem after_rowsFrom (matching : Matching same n m pairs) (left : Left pairs n m rest i b a) :
    (rowsFrom pairs n m rest i b a).filterMap Row.after = List.range' a (m - a) := by
  induction rest generalizing i b a with
  | zero => exact after_changeRows
  | succ rest ih =>
    rw [rowsFrom]
    split
    next none => exact ih (left.skip none)
    next j paired =>
      have later := left.later i j (Nat.le_refl _) paired
      have below := (matching.below i j paired).2
      rw [List.filterMap_append, after_changeRows, List.filterMap_cons, ih (left.pair matching paired)]
      have split_ : m - a = (j - a) + ((m - (j + 1)) + 1) := by omega
      have next_ : a + (j - a) = j := by omega
      rw [split_, List.range'_append_1.symm, next_, List.range'_succ]

theorem of_mem_rowsFrom {row : Row} (inside : row ∈ rowsFrom pairs n m rest i b a) :
    (∃ k j, pairs k = some j ∧ row = ⟨.equal, some k, some j⟩) ∨
      (row.kind = .change ∧ (row.before ≠ none ∨ row.after ≠ none)) := by
  induction rest generalizing i b a with
  | zero => exact .inr (of_mem_changeRows inside)
  | succ rest ih =>
    rw [rowsFrom] at inside
    split at inside
    next => exact ih inside
    next j paired =>
      rcases List.mem_append.mp inside with change | later
      · exact .inr (of_mem_changeRows change)
      · rcases List.mem_cons.mp later with rfl | more
        · exact .inl ⟨i, j, paired, rfl⟩
        · exact ih more

/-- Every pair gives one equal row. -/
theorem countP_rowsFrom (b a : Nat) (lines : i + rest = n) :
    (rowsFrom pairs n m rest i b a).countP (fun row => row.kind = .equal) + pairs.size i =
      pairs.size n := by
  induction rest generalizing i b a with
  | zero =>
    obtain rfl : i = n := by omega
    rw [rowsFrom, countP_changeRows, Nat.zero_add]
  | succ rest ih =>
    have next_ : i + 1 + rest = n := by omega
    rw [rowsFrom]
    split
    next none =>
      rw [← ih b a next_, Matches.size, none]
      rfl
    next j paired =>
      rw [List.countP_append, countP_changeRows, List.countP_cons, ← ih (i + 1) (j + 1) next_,
        Matches.size, paired]
      simp only [decide_true, if_true, Option.isSome_some]
      omega

end Rows

/-! ### Alignments -/

/-- The rows go through both sides and join like lines. -/
structure ValidRows {L : Type*} (before after : List L) (rows : List Row) : Prop where
  beforeLines : rows.filterMap Row.before = List.range before.length
  afterLines : rows.filterMap Row.after = List.range after.length
  equal : ∀ row ∈ rows, row.kind = .equal → ∃ i j line, row.before = some i ∧ row.after = some j ∧
    before[i]? = some line ∧ after[j]? = some line
  change : ∀ row ∈ rows, row.kind = .change → row.before ≠ none ∨ row.after ≠ none

/-- Both sides have the same line there. -/
def SameLine {L : Type*} (before after : List L) (i j : Nat) : Prop :=
  ∃ line, before[i]? = some line ∧ after[j]? = some line

section Build

variable {L : Type*} {before after : List L} {pairs : Matches}

theorem left_start (pairs : Matches) (n m : Nat) : Left pairs n m n 0 0 0 where
  lines := Nat.zero_add n
  start := Nat.le_refl _
  unpaired k _ less := absurd less (Nat.not_lt_zero k)
  later _ _ _ _ := Nat.zero_le _
  within := Nat.zero_le _

theorem validRows_buildRows
    (matching : Matching (SameLine before after) before.length after.length pairs) :
    ValidRows before after (buildRows pairs before.length after.length) where
  beforeLines := by
    rw [buildRows, before_rowsFrom matching (left_start _ _ _), Nat.sub_zero, List.range_eq_range']
  afterLines := by
    rw [buildRows, after_rowsFrom matching (left_start _ _ _), Nat.sub_zero, List.range_eq_range']
  equal row inside kind := by
    rcases of_mem_rowsFrom inside with ⟨i, j, paired, rfl⟩ | ⟨change, _⟩
    · obtain ⟨line, left, right⟩ := matching.like i j paired
      exact ⟨i, j, line, rfl, rfl, left, right⟩
    · rw [kind] at change
      cases change
  change row inside kind := by
    rcases of_mem_rowsFrom inside with ⟨i, j, _, rfl⟩ | ⟨_, some_⟩
    · cases kind
    · exact some_

def equalRows (rows : List Row) : Nat := rows.countP fun row => row.kind = .equal

theorem equalRows_buildRows (pairs : Matches) (n m : Nat) :
    equalRows (buildRows pairs n m) = pairs.size n := by
  have counted : (rowsFrom pairs n m n 0 0 0).countP (fun row => row.kind = .equal) + pairs.size 0 =
      pairs.size n := countP_rowsFrom 0 0 (Nat.zero_add n)
  simpa [Matches.size, equalRows, buildRows] using counted

end Build

end PrSearch.Source.Lines
