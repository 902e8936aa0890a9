import PrSearch.Source.LineAlign
import PrSearch.Source.LineRows

/-! # The difference is valid, and exact when it says so

Both texts are taken apart into their common ends and what lies between. The pairs of the ends leave the
part between free, so a script of it adds to them. A shortest script keeps a longest common part, and the
common ends belong to one; names of the lines by integers change nothing in it.
-/
namespace PrSearch.Source.Lines

open Matches EditScript

/-! ### The ends -/

section Parts

variable {L : Type*} [DecidableEq L]

theorem commonPrefix_split (xs ys : List L) :
    ∃ common xs' ys', xs = common ++ xs' ∧ ys = common ++ ys' ∧
      common.length = commonPrefix xs ys := by
  induction xs generalizing ys with
  | nil => exact ⟨[], [], ys, rfl, rfl, by simp [commonPrefix]⟩
  | cons x xs ih =>
    cases ys with
    | nil => exact ⟨[], x :: xs, [], rfl, rfl, by simp [commonPrefix]⟩
    | cons y ys =>
      rw [commonPrefix]
      split
      next equal =>
        obtain ⟨common, xs', ys', rfl, rfl, length⟩ := ih ys
        exact ⟨x :: common, xs', ys', rfl, by rw [← equal, List.cons_append],
          by rw [List.length_cons, length]⟩
      next => exact ⟨[], x :: xs, y :: ys, rfl, rfl, rfl⟩

-- The same at the end, on what the start has left.
theorem exists_parts (before after : List L) :
    ∃ first b a last : List L, before = first ++ (b ++ last) ∧ after = first ++ (a ++ last) ∧
      commonPrefix before after = first.length ∧
      commonPrefix (b ++ last).reverse (a ++ last).reverse = last.length := by
  obtain ⟨first, xs, ys, rfl, rfl, length⟩ := commonPrefix_split before after
  obtain ⟨common, b, a, isB, isA, length'⟩ := commonPrefix_split xs.reverse ys.reverse
  have backB : xs = b.reverse ++ common.reverse := by
    rw [← List.reverse_append, ← isB, List.reverse_reverse]
  have backA : ys = a.reverse ++ common.reverse := by
    rw [← List.reverse_append, ← isA, List.reverse_reverse]
  refine ⟨first, b.reverse, a.reverse, common.reverse, by rw [backB], by rw [backA], length.symm, ?_⟩
  rw [← backB, ← backA, ← length', List.length_reverse]

end Parts

variable {i k : Nat}

section Ends

variable {L : Type*} {first b a last : List L}

/-- The pairs of common ends. -/
abbrev pairsOfEnds (first b a last : List L) : Matches :=
  endPairs first.length last.length (first ++ (b ++ last)).length (first ++ (a ++ last)).length

theorem endPairs_eq_some {j : Nat} (paired : pairsOfEnds first b a last i = some j) :
    (i < first.length ∧ j = i) ∨
      ∃ k, k < last.length ∧ i = first.length + (b.length + k) ∧ j = first.length + (a.length + k) := by
  simp only [pairsOfEnds, endPairs, List.length_append] at paired
  split at paired
  next start => exact .inl ⟨start, (Option.some.inj paired).symm⟩
  next =>
    split at paired
    next stop =>
      obtain rfl := Option.some.inj paired
      exact .inr ⟨i - (first.length + b.length), by omega, by omega, by omega⟩
    next => cases paired

theorem matching_endPairs (first b a last : List L) :
    Matching (SameLine (first ++ (b ++ last)) (first ++ (a ++ last)))
      (first ++ (b ++ last)).length (first ++ (a ++ last)).length (pairsOfEnds first b a last) where
  below i j paired := by
    simp only [List.length_append]
    rcases endPairs_eq_some paired with ⟨start, rfl⟩ | ⟨k, stop, rfl, rfl⟩ <;> omega
  like i j paired := by
    rcases endPairs_eq_some paired with ⟨start, rfl⟩ | ⟨k, stop, rfl, rfl⟩
    · exact ⟨first[j], by rw [List.getElem?_append_left start, List.getElem?_eq_getElem start],
        by rw [List.getElem?_append_left start, List.getElem?_eq_getElem start]⟩
    · refine ⟨last[k], ?_, ?_⟩
      · rw [getElem?_behind, getElem?_behind, List.getElem?_eq_getElem stop]
      · rw [getElem?_behind, getElem?_behind, List.getElem?_eq_getElem stop]
  increasing i i' j j' less paired paired' := by
    rcases endPairs_eq_some paired with ⟨start, rfl⟩ | ⟨k, stop, rfl, rfl⟩ <;>
      rcases endPairs_eq_some paired' with ⟨start', rfl⟩ | ⟨k', stop', rfl, rfl⟩ <;> omega

theorem free_endPairs (first b a last : List L) :
    Free (pairsOfEnds first b a last)
      ⟨first.length, first.length + b.length, first.length, first.length + a.length⟩ := by
  intro i j paired
  rcases endPairs_eq_some paired with ⟨start, rfl⟩ | ⟨k, stop, rfl, rfl⟩
  · exact .inl ⟨start, start⟩
  · exact .inr ⟨by change first.length + b.length ≤ _; omega,
      by change first.length + a.length ≤ _; omega⟩

theorem size_endPairs (first b a last : List L) :
    (pairsOfEnds first b a last).size (first ++ (b ++ last)).length =
      first.length + last.length := by
  have start : (pairsOfEnds first b a last).size (0 + first.length) = 0 + first.length :=
    size_add_of_some fun i _ less => by
      have less : i < first.length := by omega
      simp [pairsOfEnds, endPairs, less]
  have middle : (pairsOfEnds first b a last).size (0 + first.length + b.length) =
      (pairsOfEnds first b a last).size (0 + first.length) :=
    size_add_of_none fun i from_ less => Option.eq_none_iff_forall_ne_some.mpr fun j paired => by
      rcases endPairs_eq_some paired with ⟨start, _⟩ | ⟨k, _, stop, _⟩ <;> omega
  have stop : (pairsOfEnds first b a last).size (0 + first.length + b.length + last.length) =
      (pairsOfEnds first b a last).size (0 + first.length + b.length) + last.length :=
    size_add_of_some fun i from_ less => by
      have behind : ¬ i < first.length := by omega
      have inside : (first ++ (b ++ last)).length - last.length ≤ i ∧
          i < (first ++ (b ++ last)).length := by
        simp only [List.length_append]
        omega
      simp only [pairsOfEnds, endPairs, behind, inside, if_false, and_self, if_true, Option.isSome_some]
  have total : (first ++ (b ++ last)).length = 0 + first.length + b.length + last.length := by
    simp only [List.length_append]
    omega
  rw [total, stop, middle, start]
  omega

end Ends

/-! ### Names of the lines -/

section Names

variable {L : Type*} [DecidableEq L] {b a : List L}

/-- Each line is named by its place among all that have come. -/
theorem intern_spec (ids lines : List L) :
    (∃ rest, (intern ids lines).1 = ids ++ rest) ∧ (∀ line ∈ lines, line ∈ (intern ids lines).1) ∧
      (intern ids lines).2 = lines.map (intern ids lines).1.idxOf := by
  induction lines generalizing ids with
  | nil => exact ⟨⟨[], (List.append_nil _).symm⟩, fun _ inside => (nomatch inside), rfl⟩
  | cons line lines ih =>
    rw [intern]
    split
    next old =>
      obtain ⟨⟨rest, more⟩, inside, names⟩ := ih ids
      have known : line ∈ (intern ids lines).1 := by
        rw [more]
        exact List.mem_append_left rest old
      refine ⟨⟨rest, more⟩, List.forall_mem_cons.mpr ⟨known, inside⟩, ?_⟩
      have same : (intern ids lines).1.idxOf line = ids.idxOf line := by
        rw [more, List.idxOf_append_of_mem old]
      simp only [List.map_cons, same, ← names]
    next new =>
      obtain ⟨⟨rest, more⟩, inside, names⟩ := ih (ids ++ [line])
      have known : line ∈ (intern (ids ++ [line]) lines).1 := by
        rw [more]
        exact List.mem_append_left rest (List.mem_append_right ids List.mem_cons_self)
      refine ⟨⟨line :: rest, by simp [more]⟩, List.forall_mem_cons.mpr ⟨known, inside⟩, ?_⟩
      have same : (intern (ids ++ [line]) lines).1.idxOf line = ids.length := by
        rw [more, List.append_assoc, List.idxOf_append_of_notMem new]
        simp
      simp only [List.map_cons, same, ← names]

/-- The names of both sides come from one list, which has all their lines. -/
theorem intern_both (b a : List L) :
    ∃ known : List L, (∀ line, line ∈ b ∨ line ∈ a → line ∈ known) ∧
      (intern [] b).2 = b.map known.idxOf ∧ (intern (intern [] b).1 a).2 = a.map known.idxOf := by
  obtain ⟨_, insideB, namesB⟩ := intern_spec [] b
  obtain ⟨⟨rest, more⟩, insideA, namesA⟩ := intern_spec (intern [] b).1 a
  refine ⟨(intern (intern [] b).1 a).1, ?_, ?_, namesA⟩
  · rintro line (inB | inA)
    · rw [more]
      exact List.mem_append_left rest (insideB line inB)
    · exact insideA line inA
  · rw [namesB, more]
    exact List.map_congr_left fun line inside => (List.idxOf_append_of_mem (insideB line inside)).symm

variable {known : List L}

theorem cell_map_idxOf {lines : List L} (less : i < lines.length) :
    cell (lines.map known.idxOf) i = known.idxOf lines[i] := by
  simp [cell, List.getD_eq_getElem?_getD, less]

/-- The names of what lies between stand behind the common start. -/
theorem placed_map_idxOf {first last : List L} (all : ∀ line, line ∈ b ∨ line ∈ a → line ∈ known) :
    Placed (SameLine (first ++ (b ++ last)) (first ++ (a ++ last))) (first ++ (b ++ last)).length
      (first ++ (a ++ last)).length (b.map known.idxOf) (a.map known.idxOf) first.length where
  withinB := by simp
  withinA := by simp
  like i j lessB lessA equal := by
    rw [List.length_map] at lessB lessA
    rw [cell_map_idxOf lessB, cell_map_idxOf lessA] at equal
    have same : b[i] = a[j] := (List.idxOf_inj (all _ (.inl (List.getElem_mem lessB)))).mp equal
    refine ⟨b[i], ?_, ?_⟩
    · rw [getElem?_behind, List.getElem?_append_left lessB, List.getElem?_eq_getElem lessB]
    · rw [getElem?_behind, List.getElem?_append_left lessA, List.getElem?_eq_getElem lessA, same]

/-- Names by place tell the lines apart. -/
theorem isLongest_of_idxOf (lines : 0 < b.length) (all : ∀ line, line ∈ b ∨ line ∈ a → line ∈ known)
    (longest : IsLongest (b.map known.idxOf) (a.map known.idxOf) k) : IsLongest b a k := by
  refine IsLongest.of_map (fun id => known.getD id b[0]) (fun line inside => ?_) longest
  have less := List.idxOf_lt_length_of_mem (all line inside)
  simp [List.getD_eq_getElem?_getD, less]

end Names

/-! ### The whole -/

section Whole

variable {L : Type*} [DecidableEq L] {first b a last : List L} {outside : Outside}

/-- What lies between is aligned within the free part. -/
theorem alignMiddle_spec (budget : DiffBudget)
    (spec : ∀ call xs ys options changes,
      outside.diffArrays call xs ys options = some changes → Shortest xs ys changes)
    (lines : 0 < b.length) :
    Matching (SameLine (first ++ (b ++ last)) (first ++ (a ++ last))) (first ++ (b ++ last)).length
        (first ++ (a ++ last)).length
        (alignMiddle outside b a first.length (pairsOfEnds first b a last) budget).2 ∧
      ((alignMiddle outside b a first.length (pairsOfEnds first b a last) budget).1 = true →
        ∃ k, IsLongest b a k ∧
          (alignMiddle outside b a first.length (pairsOfEnds first b a last) budget).2.size
            (first ++ (b ++ last)).length = first.length + last.length + k) := by
  obtain ⟨known, all, namesB, namesA⟩ := intern_both b a
  have placed : Placed (SameLine (first ++ (b ++ last)) (first ++ (a ++ last)))
      (first ++ (b ++ last)).length (first ++ (a ++ last)).length (b.map known.idxOf)
      (a.map known.idxOf) first.length := placed_map_idxOf all
  have matching := matching_endPairs first b a last
  have free := free_endPairs first b a last
  have approximately : ∀ calls, Matching (SameLine (first ++ (b ++ last)) (first ++ (a ++ last)))
      (first ++ (b ++ last)).length (first ++ (a ++ last)).length
      (anchorAlign outside (b.map known.idxOf) (a.map known.idxOf) first.length
        (pairsOfEnds first b a last) calls).pairs := fun calls =>
    (anchorAlign_spec placed spec (by simpa using lines) matching (by simpa [shifted] using free)).1
  simp only [alignMiddle, namesB, namesA]
  split
  next =>
    split
    next changes found =>
      have shortest := spec _ _ _ _ _ found
      have recorded := recordChanges_spec shortest.script matching (by simpa using free)
        placed.withinB placed.withinA fun k l x left right => by
          obtain ⟨lessB, isB⟩ := List.getElem?_eq_some_iff.mp left
          obtain ⟨lessA, isA⟩ := List.getElem?_eq_some_iff.mp right
          refine placed.like k l lessB lessA ?_
          rw [cell, cell, List.getD_eq_getElem?_getD, List.getD_eq_getElem?_getD, left, right]
      refine ⟨recorded.matching, fun _ => ⟨kept changes, ?_, ?_⟩⟩
      · exact isLongest_of_idxOf lines all shortest.isLongest
      · rw [recorded.size, size_endPairs]
    next => exact ⟨approximately 1, fun exact_ => by cases exact_⟩
  next => exact ⟨approximately 0, fun exact_ => by cases exact_⟩

-- The ends belong to a longest common part.
theorem isLongest_ends (longest : IsLongest b a k) :
    IsLongest (first ++ (b ++ last)) (first ++ (a ++ last)) (first.length + last.length + k) := by
  have total : first.length + last.length + k = first.length + (k + last.length) := by omega
  rw [total]
  exact (longest.append_right last).append_left first

theorem diffLineArrays_parts (outside : Outside) (budget : DiffBudget)
    (start : commonPrefix (first ++ (b ++ last)) (first ++ (a ++ last)) = first.length)
    (stop : commonPrefix (b ++ last).reverse (a ++ last).reverse = last.length) :
    diffLineArrays outside (first ++ (b ++ last)) (first ++ (a ++ last)) budget =
      if 0 < b.length ∧ 0 < a.length then
        let middle := alignMiddle outside b a first.length (pairsOfEnds first b a last) budget
        ⟨buildRows middle.2 (first ++ (b ++ last)).length (first ++ (a ++ last)).length, !middle.1⟩
      else
        ⟨buildRows (pairsOfEnds first b a last) (first ++ (b ++ last)).length
          (first ++ (a ++ last)).length, false⟩ := by
  have lengthB : (first ++ (b ++ last)).length - first.length - last.length = b.length := by
    simp only [List.length_append]
    omega
  have lengthA : (first ++ (a ++ last)).length - first.length - last.length = a.length := by
    simp only [List.length_append]
    omega
  have lengthB' : (first ++ (b ++ last)).length - last.length - first.length = b.length := by
    omega
  have lengthA' : (first ++ (a ++ last)).length - last.length - first.length = a.length := by
    omega
  simp only [diffLineArrays, start, List.drop_left, stop, lengthB, lengthA, lengthB', lengthA',
    List.take_left]

end Whole

/-- The pairs that the rows are made from, and how many there are when the difference is exact. -/
theorem diffLineArrays_pairs {L : Type*} [DecidableEq L] {outside : Outside}
    (spec : ∀ call xs ys options changes,
      outside.diffArrays call xs ys options = some changes → Shortest xs ys changes)
    (before after : List L) (budget : DiffBudget) :
    ∃ pairs, (diffLineArrays outside before after budget).rows =
        buildRows pairs before.length after.length ∧
      Matching (SameLine before after) before.length after.length pairs ∧
      ((diffLineArrays outside before after budget).approximate = false →
        IsLongest before after (pairs.size before.length)) := by
  obtain ⟨first, b, a, last, rfl, rfl, start, stop⟩ := exists_parts before after
  rw [diffLineArrays_parts outside budget start stop]
  split
  next lines =>
    obtain ⟨matching, exact_⟩ := alignMiddle_spec budget spec lines.1
    refine ⟨_, rfl, matching, fun precise => ?_⟩
    obtain ⟨k, longest, size⟩ := exact_ (by simpa using precise)
    rw [size]
    exact isLongest_ends longest
  next nothing =>
    refine ⟨_, rfl, matching_endPairs first b a last, fun _ => ?_⟩
    rw [size_endPairs]
    -- with no line on one side nothing is common but the ends
    have longest : IsLongest b a 0 := by
      have empty : b = [] ∨ a = [] := by
        rw [← List.length_eq_zero_iff, ← List.length_eq_zero_iff]
        omega
      rcases empty with rfl | rfl
      · exact isLongest_nil_left a
      · exact isLongest_nil_right b
    exact isLongest_ends longest

theorem validRows_diffLineArrays {L : Type*} [DecidableEq L] {outside : Outside}
    (spec : ∀ call xs ys options changes,
      outside.diffArrays call xs ys options = some changes → Shortest xs ys changes)
    (before after : List L) (budget : DiffBudget) :
    ValidRows before after (diffLineArrays outside before after budget).rows := by
  obtain ⟨pairs, rows, matching, _⟩ := diffLineArrays_pairs spec before after budget
  rw [rows]
  exact validRows_buildRows matching

/-- The rows go through both texts and join equal lines, and without an approximation no alignment has
more equal rows. -/
theorem diffLineArrays_valid_and_exact {L : Type*} [DecidableEq L] (outside : Outside)
    (spec : ∀ call xs ys options changes,
      outside.diffArrays call xs ys options = some changes → Shortest xs ys changes)
    (before after : List L) (budget : DiffBudget) :
    ValidRows before after (diffLineArrays outside before after budget).rows ∧
      ((diffLineArrays outside before after budget).approximate = false →
        IsLongest before after (equalRows (diffLineArrays outside before after budget).rows)) := by
  refine ⟨validRows_diffLineArrays spec before after budget, fun precise => ?_⟩
  obtain ⟨pairs, rows, _, longest⟩ := diffLineArrays_pairs spec before after budget
  rw [rows, equalRows_buildRows]
  exact longest precise

/-- Answers for one line that stays between two new ones, and gives up on everything else. -/
def oneStays : Outside where
  diffArrays _ xs ys _ :=
    if xs = [0] ∧ ys = [1, 0, 2] then
      some [⟨1, true, false⟩, ⟨1, false, false⟩, ⟨1, true, false⟩]
    else none
  now _ := 0

theorem shortest_oneStays (call : Nat) (xs ys : List Nat) (options : DiffOptions)
    (changes : List EditScript.Change) (found : oneStays.diffArrays call xs ys options = some changes) :
    Shortest xs ys changes := by
  simp only [oneStays] at found
  split at found
  next own =>
    obtain ⟨rfl, rfl⟩ := own
    obtain rfl := Option.some.inj found
    refine ⟨.add [1] false (.keep [0] (.add [2] false .done)), fun other script => ?_⟩
    have total := script.length_add
    obtain ⟨zs, left, _, length⟩ := script.common
    have few := left.length_le
    simp only [List.length_cons, List.length_nil, cost] at total few ⊢
    simp
    omega
  next => cases found

theorem diffLineArrays_valid_and_exact_one_stays :
    ValidRows ["k"] ["c", "k", "d"] (diffLineArrays oneStays ["k"] ["c", "k", "d"] {}).rows ∧
      IsLongest ["k"] ["c", "k", "d"] 1 := by
  obtain ⟨valid, exact_⟩ := diffLineArrays_valid_and_exact oneStays shortest_oneStays ["k"]
    ["c", "k", "d"] {}
  exact ⟨valid, exact_ (by decide)⟩

end PrSearch.Source.Lines
