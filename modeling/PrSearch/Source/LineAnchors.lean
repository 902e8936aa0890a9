import PrSearch.Source.LineDiff

/-! # Anchors

The arrays of a fallback are used again for every range, and they are clean again after it. Lines that
occur once on each side are pairs of like lines, and the run that is found among them increases on both
sides.
-/
namespace PrSearch.Source.Lines

/-! ### Counts -/

section Counts

variable {lines places : List Nat} {count position : Nat → Nat} {id : Nat}

theorem countLines_eq : countLines lines places count id =
    count id + places.countP fun i => cell lines i = id := by
  induction places generalizing count with
  | nil => rfl
  | cons i places ih =>
    change countLines lines places _ id = _
    rw [ih, List.countP_cons]
    by_cases own : cell lines i = id
    · subst own
      simp only [Function.update_self, decide_true, if_true]
      omega
    · have other : id ≠ cell lines i := fun is => own is.symm
      simp [own, other]

theorem clearLines_of_mem {i : Nat} (inside : i ∈ places) :
    clearLines lines places count (cell lines i) = 0 := by
  -- once it is zero it stays so
  have stays : ∀ (places : List Nat) (count : Nat → Nat) (id : Nat), count id = 0 →
      clearLines lines places count id = 0 := by
    intro places
    induction places with
    | nil => exact fun _ _ zero => zero
    | cons i places ih =>
      intro count id zero
      refine ih _ id ?_
      by_cases own : id = cell lines i
      · subst own
        simp
      · simpa [own] using zero
  induction places generalizing count with
  | nil => cases inside
  | cons first places ih =>
    rcases List.mem_cons.mp inside with rfl | later
    · exact stays places _ _ (by simp)
    · exact ih later

theorem clearLines_of_not_mem (absent : ∀ i ∈ places, cell lines i ≠ id) :
    clearLines lines places count id = count id := by
  induction places generalizing count with
  | nil => rfl
  | cons i places ih =>
    rw [List.forall_mem_cons] at absent
    change clearLines lines places _ id = _
    rw [ih absent.2]
    exact Function.update_of_ne absent.1.symm _ _

/-- What has been counted is cleared. -/
theorem clearLines_countLines (zero : ∀ id, count id = 0) :
    clearLines lines places (countLines lines places count) id = 0 := by
  by_cases there : ∃ i ∈ places, cell lines i = id
  · obtain ⟨i, inside, rfl⟩ := there
    exact clearLines_of_mem inside
  · have absent : ∀ i ∈ places, cell lines i ≠ id := fun i inside is => there ⟨i, inside, is⟩
    rw [clearLines_of_not_mem absent, countLines_eq, zero, Nat.zero_add]
    exact List.countP_eq_zero.mpr fun i inside => by simpa using absent i inside

/-- A position that is noted is one of the line. -/
theorem notePositions_spec (lines : List Nat) (position : Nat → Nat) {j : Nat}
    (inside : j ∈ places) :
    notePositions lines places position (cell lines j) ∈ places ∧
      cell lines (notePositions lines places position (cell lines j)) = cell lines j := by
  -- the position that is there, or a later one
  have spec : ∀ (places : List Nat) (position : Nat → Nat) (id : Nat),
      (notePositions lines places position id ∈ places ∧
        cell lines (notePositions lines places position id) = id) ∨
      (notePositions lines places position id = position id ∧ ∀ j ∈ places, cell lines j ≠ id) := by
    intro places
    induction places with
    | nil => exact fun _ _ => .inr ⟨rfl, fun _ inside => nomatch inside⟩
    | cons first places ih =>
      intro position id
      rcases ih (Function.update position (cell lines first) first) id with
        ⟨inside, is⟩ | ⟨same, absent⟩
      · exact .inl ⟨List.mem_cons_of_mem _ inside, is⟩
      · have kept : notePositions lines (first :: places) position id =
            Function.update position (cell lines first) first id := same
        by_cases own : id = cell lines first
        · subst own
          rw [Function.update_self] at kept
          rw [kept]
          exact .inl ⟨List.mem_cons_self, rfl⟩
        · rw [Function.update_of_ne own] at kept
          exact .inr ⟨kept, List.forall_mem_cons.mpr ⟨fun is => own is.symm, absent⟩⟩
  rcases spec places position (cell lines j) with found | ⟨_, absent⟩
  · exact found
  · exact absurd rfl (absent j inside)

end Counts

/-! ### Pairs -/

section Pairs

variable {b : List Nat} {scratch : Scratch} {start stop : Nat}

/-- The pairs that are found up to a place. -/
structure Collected (b : List Nat) (scratch : Scratch) (start stop : Nat)
    (found : Nat × (Nat → Nat) × (Nat → Nat)) : Prop where
  place : ∀ k, k < found.1 → start ≤ found.2.1 k ∧ found.2.1 k < stop
  once : ∀ k, k < found.1 → scratch.countA (cell b (found.2.1 k)) = 1 ∧
    found.2.2 k = scratch.positionA (cell b (found.2.1 k))
  increasing : ∀ k k', k < k' → k' < found.1 → found.2.1 k < found.2.1 k'

/-- The places of a list come one after the other. -/
theorem Collected.foldl {found : Nat × (Nat → Nat) × (Nat → Nat)}
    (collected : Collected b scratch start stop found) (count : Nat) (from_ : start ≤ stop) :
    Collected b scratch start (stop + count) <| (List.range' stop count).foldl (fun found i =>
      if scratch.countB (cell b i) = 1 ∧ scratch.countA (cell b i) = 1 then
        (found.1 + 1, Function.update found.2.1 found.1 i,
          Function.update found.2.2 found.1 (scratch.positionA (cell b i)))
      else found) found := by
  induction count generalizing found stop with
  | zero => exact collected
  | succ count ih =>
    rw [List.range'_succ, List.foldl_cons, Nat.add_comm count 1, ← Nat.add_assoc]
    refine ih ?_ (Nat.le_succ_of_le from_)
    split
    next both =>
      -- the new pair is behind the others
      have earlier : ∀ k, k < found.1 → k ≠ found.1 := fun k less => Nat.ne_of_lt less
      refine ⟨fun k less => ?_, fun k less => ?_, fun k k' order less => ?_⟩
      · by_cases own : k = found.1
        · subst own
          simpa using from_
        · have place := collected.place k (by omega)
          simp only [ne_eq, own, not_false_eq_true, Function.update_of_ne]
          omega
      · by_cases own : k = found.1
        · subst own
          simpa using both.2
        · simpa [own] using collected.once k (by omega)
      · have apart : k ≠ found.1 := by omega
        by_cases own : k' = found.1
        · subst own
          have place := collected.place k order
          simpa [apart] using place.2
        · simpa [own, apart] using collected.increasing k k' order (by omega)
    next =>
      refine ⟨fun k less => ?_, collected.once, collected.increasing⟩
      have place := collected.place k less
      omega

theorem collected_collectPairs (b : List Nat) (scratch : Scratch) (within : start ≤ stop) :
    Collected b scratch start stop (collectPairs b scratch (places start stop)) := by
  have none : Collected b scratch start start (0, scratch.pairB, scratch.pairA) :=
    ⟨fun _ less => absurd less (Nat.not_lt_zero _), fun _ less => absurd less (Nat.not_lt_zero _),
      fun _ _ _ less => absurd less (Nat.not_lt_zero _)⟩
  have all := none.foldl (stop - start) (Nat.le_refl _)
  rwa [Nat.add_sub_cancel' within] at all

end Pairs

/-! ### Increasing runs -/

section Piles

variable {values : Nat → Nat} {links : Nat → Option Nat} {i t : Nat}

theorem lowerBound_spec (values tails : Nat → Nat) (value fuel : Nat) {low high : Nat}
    (within : low ≤ high) :
    low ≤ lowerBound values tails value fuel low high ∧
      lowerBound values tails value fuel low high ≤ high ∧
        (lowerBound values tails value fuel low high = low ∨
          values (tails (lowerBound values tails value fuel low high - 1)) < value) := by
  induction fuel generalizing low high with
  | zero => exact ⟨Nat.le_refl _, within, .inl rfl⟩
  | succ fuel ih =>
    rw [lowerBound]
    split
    next less =>
      simp only []
      split
      next smaller =>
        have above : (low + high) / 2 + 1 ≤ high := by omega
        obtain ⟨least, most, before⟩ := ih above
        refine ⟨by omega, most, .inr ?_⟩
        rcases before with is | before
        · rw [is, Nat.add_sub_cancel]
          exact smaller
        · exact before
      next =>
        have below : low ≤ (low + high) / 2 := by omega
        obtain ⟨least, most, before⟩ := ih below
        exact ⟨least, by omega, before⟩
    next => exact ⟨Nat.le_refl _, within, .inl rfl⟩

/-- A run of so many links ends with the index, and its values increase. -/
inductive Run (values : Nat → Nat) (links : Nat → Option Nat) : Nat → Nat → Prop
  | first {i : Nat} (none : links i = none) : Run values links 0 i
  | next {t p i : Nat} (link : links i = some p) (earlier : p < i) (smaller : values p < values i)
      (run : Run values links t p) : Run values links (t + 1) i

-- A link further on does not matter.
theorem Run.update {link : Option Nat} {last : Nat} (run : Run values links t i) (less : i < last) :
    Run values (Function.update links last link) t i := by
  induction run with
  | first none => exact .first (by rwa [Function.update_of_ne (Nat.ne_of_lt less)])
  | next is earlier smaller run ih =>
    refine .next ?_ earlier smaller (ih (Nat.lt_trans earlier less))
    rwa [Function.update_of_ne (Nat.ne_of_lt less)]

/-- Every tail ends a run, as long as its place says. -/
structure PilesOk (values : Nat → Nat) (piles : Piles) (count : Nat) : Prop where
  run : ∀ t, t < piles.length → Run values piles.links t (piles.tails t)
  below : ∀ t, t < piles.length → piles.tails t < count
  some_ : 0 < count → 0 < piles.length

theorem PilesOk.add {piles : Piles} {count : Nat} (ok : PilesOk values piles count) :
    PilesOk values (addToPiles values piles count) (count + 1) := by
  obtain ⟨_, most, before⟩ := lowerBound_spec values piles.tails (values count) piles.length
    (Nat.zero_le piles.length)
  generalize place : lowerBound values piles.tails (values count) piles.length 0 piles.length = low
    at most before
  have length : (addToPiles values piles count).length =
      if low = piles.length then piles.length + 1 else piles.length := by simp only [addToPiles, place]
  have tails : (addToPiles values piles count).tails = Function.update piles.tails low count := by
    simp only [addToPiles, place]
  have links : (addToPiles values piles count).links = Function.update piles.links count
      (if 0 < low then some (piles.tails (low - 1)) else none) := by simp only [addToPiles, place]
  refine ⟨fun t less => ?_, fun t less => ?_, fun _ => ?_⟩
  · rw [tails, links]
    rw [length] at less
    by_cases own : t = low
    · -- the new run: the one of the smaller tail before, and the new index
      subst own
      rw [Function.update_self]
      cases t with
      | zero => exact .first (by simp)
      | succ t =>
        have inside : t < piles.length := by omega
        have smaller : values (piles.tails t) < values count := by simpa using before
        refine .next ?_ (ok.below t inside) smaller ((ok.run t inside).update (ok.below t inside))
        simp
    · have inside : t < piles.length := by
        split at less
        · omega
        · exact less
      rw [Function.update_of_ne own]
      exact (ok.run t inside).update (ok.below t inside)
  · rw [tails]
    rw [length] at less
    by_cases own : t = low
    · subst own
      simp
    · have inside : t < piles.length := by
        split at less
        · omega
        · exact less
      rw [Function.update_of_ne own]
      exact Nat.lt_succ_of_lt (ok.below t inside)
  · rw [length]
    split
    · exact Nat.succ_pos _
    · omega

theorem pilesOk_foldl (values : Nat → Nat) (count : Nat) (tails : Nat → Nat) (links : Nat → Option Nat) :
    PilesOk values ((List.range count).foldl (addToPiles values) ⟨0, tails, links⟩) count := by
  induction count with
  | zero =>
    exact ⟨fun _ less => absurd less (Nat.not_lt_zero _),
      fun _ less => absurd less (Nat.not_lt_zero _), fun less => absurd less (Nat.lt_irrefl _)⟩
  | succ count ih =>
    rw [List.range_succ, List.foldl_append, List.foldl_cons, List.foldl_nil]
    exact ih.add

theorem unwind_of_le {chain : Nat → Nat} {index s : Nat} (from_ : t ≤ s) :
    unwind links t index chain s = chain s := by
  induction t generalizing index chain with
  | zero => rfl
  | succ t ih =>
    rw [unwind, ih (Nat.le_of_succ_le from_), Function.update_of_ne]
    omega

/-- A chain of indices whose values increase. -/
structure Climbs (values : Nat → Nat) (length last : Nat) (chain : Nat → Nat) : Prop where
  below : ∀ s, s < length → chain s ≤ last
  index : ∀ s, s + 1 < length → chain s < chain (s + 1)
  value : ∀ s, s + 1 < length → values (chain s) < values (chain (s + 1))

theorem climbs_unwind (chain : Nat → Nat) (run : Run values links t i) :
    Climbs values (t + 1) i (unwind links (t + 1) i chain) := by
  induction run generalizing chain with
  | first none =>
    refine ⟨fun s less => ?_, fun s less => by omega, fun s less => by omega⟩
    obtain rfl : s = 0 := by omega
    simp [unwind]
  | @next t p i link earlier smaller run ih =>
    have step : unwind links (t + 2) i chain =
        unwind links (t + 1) p (Function.update chain (t + 1) i) := by
      rw [unwind, link, Option.getD_some]
    have climbs := ih (Function.update chain (t + 1) i)
    have last : unwind links (t + 1) p (Function.update chain (t + 1) i) (t + 1) = i := by
      rw [unwind_of_le (Nat.le_refl _), Function.update_self]
    have before : unwind links (t + 1) p (Function.update chain (t + 1) i) t = p := by
      rw [unwind, unwind_of_le (Nat.le_refl _), Function.update_self]
    rw [step]
    refine ⟨fun s less => ?_, fun s less => ?_, fun s less => ?_⟩
    · by_cases own : s = t + 1
      · rw [own, last]
      · exact Nat.le_trans (climbs.below s (by omega)) (Nat.le_of_lt earlier)
    · by_cases own : s = t
      · rw [own, last, before]
        exact earlier
      · exact climbs.index s (by omega)
    · by_cases own : s = t
      · rw [own, last, before]
        exact smaller
      · exact climbs.value s (by omega)

/-- The run that is found. -/
theorem longestIncreasing_spec (values : Nat → Nat) (scratch : Scratch) {count : Nat}
    (some_ : 0 < count) :
    0 < (longestIncreasing values count scratch).1 ∧
      Climbs values (longestIncreasing values count scratch).1 (count - 1)
        (longestIncreasing values count scratch).2.chain := by
  have ok := pilesOk_foldl values count scratch.tails scratch.links
  generalize is : (List.range count).foldl (addToPiles values) ⟨0, scratch.tails, scratch.links⟩ =
    piles at ok
  have positive := ok.some_ some_
  have last : piles.length - 1 < piles.length := by omega
  have climbs := climbs_unwind scratch.chain (ok.run _ last)
  have below := ok.below _ last
  rw [Nat.sub_add_cancel positive] at climbs
  have length : (longestIncreasing values count scratch).1 = piles.length := by
    simp only [longestIncreasing, is]
  have chain : (longestIncreasing values count scratch).2.chain =
      unwind piles.links piles.length (piles.tails (piles.length - 1)) scratch.chain := by
    simp only [longestIncreasing, is]
  rw [length, chain]
  exact ⟨positive, fun s less => Nat.le_trans (climbs.below s less) (by omega), climbs.index,
    climbs.value⟩

end Piles

end PrSearch.Source.Lines
