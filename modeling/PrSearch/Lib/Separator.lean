import PrSearch.Lib.Pattern

/-! # Patterns beside a separator

A character that no run of a pattern takes, and that is none of a word, separates a text: no match
goes over it, and the matches before it and after it are those of the two parts. Where a pattern looks
at the character before a place, it sees no difference between such a character and none.
-/
namespace Pattern

/-- Whether a piece can stop at the character as it stops at the end of the text. -/
def Piece.Avoids (c : Char) : Piece → Prop
  | .run taken => taken.accepts c = false
  | .boundary => True
  | .ending => False

/-- The pattern takes some characters, and never the separator. -/
structure Avoids (pattern : Pattern) (c : Char) : Prop where
  each : ∀ piece ∈ pattern.pieces, piece.Avoids c
  noWord : isWord c = false
  some : 0 < pattern.group.atLeast

variable {pieces : List Piece} {before before' : Option Char}

/-! ### One match -/

section Match

variable {c : Char} {β γ : Type*}

theorem findSome?_congr {α : Type*} {some_ other : α → Option β} {xs : List α}
    (same : ∀ x ∈ xs, some_ x = other x) : xs.findSome? some_ = xs.findSome? other := by
  induction xs with
  | nil => rfl
  | cons x xs ih =>
    obtain ⟨own, later⟩ := List.forall_mem_cons.mp same
    rw [List.findSome?_cons, List.findSome?_cons, own, ih later]

theorem takeWhile_separated {accepts : Char → Bool} (rejects : accepts c = false)
    (front back : List Char) : (front ++ c :: back).takeWhile accepts = front.takeWhile accepts := by
  induction front with
  | nil => simp [rejects]
  | cons d front ih => simp [List.takeWhile_cons, ih]

theorem Run.lengths_separated {run : Run} (rejects : run.accepts c = false) (front back : List Char) :
    run.lengths (front ++ c :: back) = run.lengths front := by
  rw [lengths, lengths, takeWhile_separated rejects]
  refine List.filter_congr fun n inside => ?_
  rw [List.mem_reverse, List.mem_range] at inside
  have within : n ≤ front.length :=
    Nat.le_trans (Nat.le_of_lt_succ inside) (List.takeWhile_prefix _).length_le
  rw [List.take_append_of_le_length within]

theorem atBoundary_separated (noWord : isWord c = false) (before : Option Char)
    (front back : List Char) : atBoundary before (front ++ c :: back) = atBoundary before front := by
  cases front <;> simp [atBoundary, noWord]

variable {last : Option Char → List Char → Option β}

/-- The pieces match before the separator as they match before the end. -/
theorem matchPieces_separated (noWord : isWord c = false)
    (avoids : ∀ piece ∈ pieces, piece.Avoids c) (back : List Char) (go : β → γ)
    {next : Option Char → List Char → Option γ}
    (same : ∀ before front, next before (front ++ c :: back) = (last before front).map go)
    (before : Option Char) (front : List Char) :
    matchPieces pieces next before (front ++ c :: back) =
      (matchPieces pieces last before front).map go := by
  induction pieces generalizing before front with
  | nil => exact same before front
  | cons piece pieces ih =>
    obtain ⟨own, later⟩ := List.forall_mem_cons.mp avoids
    cases piece with
    | run run =>
      rw [matchPieces, matchPieces, Run.lengths_separated own, List.map_findSome?]
      refine findSome?_congr fun n inside => ?_
      have within := Run.le_of_mem_lengths inside
      rw [List.take_append_of_le_length within, List.drop_append_of_le_length within, ih later]
      rfl
    | boundary =>
      rw [matchPieces, matchPieces, atBoundary_separated noWord, ih later]
      split <;> rfl
    | ending => exact absurd own id

variable {pattern : Pattern}

theorem matchAt_separated (avoids : pattern.Avoids c) (before : Option Char) (front back : List Char) :
    pattern.matchAt before (front ++ c :: back) =
      (pattern.matchAt before front).map fun found => (found.1, found.2 ++ c :: back) := by
  have leads : ∀ piece ∈ pattern.lead, piece.Avoids c :=
    fun piece inside => avoids.each piece (List.mem_append_left _ inside)
  have group : pattern.group.accepts c = false :=
    avoids.each (.run pattern.group) (List.mem_append_right _ List.mem_cons_self)
  have trails : ∀ piece ∈ pattern.trail, piece.Avoids c :=
    fun piece inside => avoids.each piece (List.mem_append_right _ (List.mem_cons_of_mem _ inside))
  refine matchPieces_separated avoids.noWord leads back _ (fun before front => ?_) before front
  rw [Run.lengths_separated group, List.map_findSome?]
  refine findSome?_congr fun n inside => ?_
  have within := Run.le_of_mem_lengths inside
  rw [List.take_append_of_le_length within, List.drop_append_of_le_length within]
  exact matchPieces_separated avoids.noWord trails back _ (fun _ _ => rfl) _ _

theorem matchAt_nil (some_ : 0 < pattern.group.atLeast) (before : Option Char) :
    pattern.matchAt before [] = none := by
  cases matched : pattern.matchAt before [] with
  | none => rfl
  | some found =>
    obtain ⟨used, is, inside, _⟩ := used_of_matchAt matched
    obtain ⟨rfl, _⟩ := List.append_eq_nil_iff.mp is.symm
    have least := (bounds_of_matchAt matched).1
    rw [List.infix_nil.mp inside] at least
    exact absurd least (Nat.not_le.mpr some_)

-- Of the character before a place, only matters whether it is one of a word.
theorem matchPieces_before {next : Option Char → List Char → Option β}
    (same : ∀ before before' text, before.any isWord = before'.any isWord →
      next before text = last before' text) (alike : before.any isWord = before'.any isWord)
    (text : List Char) :
    matchPieces pieces next before text = matchPieces pieces last before' text := by
  induction pieces generalizing before before' text with
  | nil => exact same _ _ _ alike
  | cons piece pieces ih =>
    cases piece with
    | run run =>
      rw [matchPieces, matchPieces]
      refine findSome?_congr fun n _ => ih ?_ _
      cases taken : (text.take n).getLast? with
      | none => simpa [lastOf, taken] using alike
      | some d => simp [lastOf, taken]
    | boundary => rw [matchPieces, matchPieces, atBoundary, atBoundary, alike, ih alike]
    | ending => rw [matchPieces, matchPieces, ih alike]

theorem matchAt_before (alike : before.any isWord = before'.any isWord) (text : List Char) :
    pattern.matchAt before text = pattern.matchAt before' text := by
  refine matchPieces_before (fun before before' text alike => ?_) alike text
  refine findSome?_congr fun n _ => ?_
  refine matchPieces_before ?_ ?_ (text.drop n)
  · exact fun _ _ _ _ => rfl
  cases taken : (text.take n).getLast? with
  | none => simpa [lastOf, taken] using alike
  | some d => simp [lastOf, taken]

end Match

/-! ### All matches -/

section Matches

variable {pattern : Pattern} {c : Char}

theorem matchesFrom_nil (skip : Nat) (before : Option Char) (offset : Nat) :
    pattern.matchesFrom skip before offset [] = [] := by
  cases skip <;> rfl

theorem matchesFrom_before (alike : before.any isWord = before'.any isWord) (offset : Nat)
    (text : List Char) :
    pattern.matchesFrom 0 before offset text = pattern.matchesFrom 0 before' offset text := by
  cases text with
  | nil => rfl
  | cons d text => rw [matchesFrom, matchesFrom, matchAt_before alike]

theorem matchesFrom_offset (pattern : Pattern) (skip : Nat) (before : Option Char) (offset more : Nat) (text : List Char) :
    pattern.matchesFrom skip before (offset + more) text =
      (pattern.matchesFrom skip before offset text).map fun found => (found.1 + more, found.2) := by
  induction text generalizing skip before offset with
  | nil => rw [matchesFrom_nil, matchesFrom_nil, List.map_nil]
  | cons d text ih =>
    have moved : offset + more + size d = offset + size d + more := Nat.add_right_comm _ _ _
    cases skip with
    | succ skip => rw [matchesFrom, matchesFrom, moved, ih]
    | zero =>
      rw [matchesFrom, matchesFrom, moved]
      cases pattern.matchAt before (d :: text) with
      | none => exact ih _ _ _
      | some found =>
        simp only [List.map_cons]
        rw [ih]

/-- The matches of the two parts, those of the second one by its own offsets. -/
theorem matchesFrom_separated (avoids : pattern.Avoids c) (skip : Nat) (before : Option Char)
    (offset : Nat) (front back : List Char) (within : skip ≤ front.length) :
    pattern.matchesFrom skip before offset (front ++ c :: back) =
      pattern.matchesFrom skip before offset front ++
        pattern.matchesFrom 0 none (offset + sizeOf front + size c) back := by
  induction front generalizing skip before offset with
  | nil =>
    obtain rfl : skip = 0 := Nat.le_zero.mp within
    have none_ := matchAt_separated avoids before [] back
    rw [matchAt_nil avoids.some, List.nil_append, Option.map_none] at none_
    rw [matchesFrom_nil, List.nil_append, List.nil_append, matchesFrom]
    simp only [none_]
    exact matchesFrom_before (by simp [avoids.noWord]) _ _
  | cons d front ih =>
    have moved : offset + sizeOf (d :: front) + size c = offset + size d + sizeOf front + size c := by
      rw [sizeOf_cons]
      omega
    rw [moved]
    cases skip with
    | succ skip =>
      rw [List.cons_append, matchesFrom, matchesFrom, ih _ _ _ (Nat.le_of_succ_le_succ within)]
    | zero =>
      have matched := matchAt_separated avoids before (d :: front) back
      rw [List.cons_append] at matched
      rw [List.cons_append, matchesFrom, matchesFrom, matched]
      cases pattern.matchAt before (d :: front) with
      | none => exact ih _ _ _ (Nat.zero_le _)
      | some found =>
        have left : (front ++ c :: back).length - (found.2 ++ c :: back).length =
            front.length - found.2.length := by
          simp only [List.length_append, List.length_cons]
          omega
        simp only [Option.map_some, left]
        rw [ih _ _ _ (Nat.sub_le _ _), List.cons_append]

theorem allMatches_separated (avoids : pattern.Avoids c) (front back : List Char) :
    pattern.allMatches (front ++ c :: back) = pattern.allMatches front ++
      (pattern.allMatches back).map fun found => (found.1 + (sizeOf front + size c), found.2) := by
  have moved := matchesFrom_offset pattern 0 none 0 (sizeOf front + size c) back
  rw [allMatches, matchesFrom_separated avoids 0 none 0 front back (Nat.zero_le _), allMatches,
    allMatches, ← moved, Nat.zero_add, Nat.zero_add]

/-- Where the pattern matches at no later place, there are no more matches. -/
theorem matchesFrom_eq_nil {skip : Nat} {text : List Char}
    (none_ : ∀ before back, back <:+ text.drop skip → pattern.matchAt before back = none)
    (before : Option Char) (offset : Nat) : pattern.matchesFrom skip before offset text = [] := by
  induction text generalizing skip before offset with
  | nil => exact matchesFrom_nil _ _ _
  | cons d text ih =>
    cases skip with
    | succ skip =>
      rw [matchesFrom]
      exact ih (fun before back suffix_ => none_ before back (by simpa using suffix_)) _ _
    | zero =>
      rw [matchesFrom, none_ before (d :: text) List.suffix_rfl]
      exact ih (fun before back suffix_ =>
        none_ before back (List.IsSuffix.trans (by simpa using suffix_) (List.suffix_cons d text))) _ _

end Matches

end Pattern
