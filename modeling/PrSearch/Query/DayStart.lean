import Mathlib.Order.Bounds.Basic
import PrSearch.Query.Days

/-! # The first instant of a day

In the window that is searched the offset of a zone changes once at most, at any instant and by any
amount within a day. Where the clock shows midnight, the first midnight it shows is among the three
guesses; where it shows none, it jumps over midnight at the change, and the halving ends there. In
both cases that is the least instant at which the clock shows the day or a later one.
-/
namespace PrSearch.Query

/-- Around a midnight the offset has one value before an instant and one from there on. -/
def Offset.OneChange (offset : Offset) (midnight : Int) : Prop :=
  ∃ change before after, ∀ t, midnight - searchWindowMs ≤ t → t ≤ midnight + searchWindowMs →
    offset t = if t < change then before else after

/-- The clock of the zone is never more than a day away from UTC. -/
def Offset.WithinDay (offset : Offset) : Prop := ∀ t, -dayMs ≤ offset t ∧ offset t ≤ dayMs

/-- The instants at which the clock shows the day of this number or a later one. -/
def shownFrom (offset : Offset) (number : Int) : Set Int :=
  fun t => number ≤ wallClock offset t / dayMs

theorem mem_shownFrom (offset : Offset) (number t : Int) :
    t ∈ shownFrom offset number ↔ dayMs * number ≤ wallClock offset t := by
  change number ≤ wallClock offset t / dayMs ↔ _
  rw [Int.le_ediv_iff_mul_le (by decide), Int.mul_comm]

section Window

variable {offset : Offset} {midnight change before after : Int}

theorem dayMs_window : dayMs + 7200000 = searchWindowMs := by decide

/-- The three guesses of the code. -/
def guesses (offset : Offset) (midnight : Int) : List Int :=
  [midnight - dayMs, midnight, midnight + dayMs].map fun probe =>
    midnight - (wallClock offset probe - probe)

theorem mem_guesses (probe : Int) (among : probe ∈ [midnight - dayMs, midnight, midnight + dayMs]) :
    midnight - offset probe ∈ guesses offset midnight := by
  refine List.mem_map.mpr ⟨probe, among, ?_⟩
  rw [wallClock]
  omega

section OneChange

variable (within : offset.WithinDay)
  (parts : ∀ t, midnight - searchWindowMs ≤ t → t ≤ midnight + searchWindowMs →
    offset t = if t < change then before else after)
include within parts

/-- Before the change the clock shows midnight where the first guess says, if it shows it at all. -/
theorem guess_before (early : midnight - before < change)
    (bound : -dayMs ≤ before ∧ before ≤ dayMs) :
    midnight - before ∈ guesses offset midnight ∧ wallClock offset (midnight - before) = midnight := by
  have window := dayMs_window
  have first := parts (midnight - dayMs) (by omega) (by omega)
  rw [if_pos (by omega)] at first
  have there := parts (midnight - before) (by omega) (by omega)
  rw [if_pos early] at there
  constructor
  · rw [← first]
    exact mem_guesses (midnight - dayMs) (by simp)
  · rw [wallClock, there]
    omega

/-- From the change on it shows midnight where the last guess says. -/
theorem guess_after (late : change ≤ midnight - after) (bound : -dayMs ≤ after ∧ after ≤ dayMs) :
    midnight - after ∈ guesses offset midnight ∧ wallClock offset (midnight - after) = midnight := by
  have window := dayMs_window
  have last := parts (midnight + dayMs) (by omega) (by omega)
  rw [if_neg (by omega)] at last
  have there := parts (midnight - after) (by omega) (by omega)
  rw [if_neg (by omega)] at there
  constructor
  · rw [← last]
    exact mem_guesses (midnight + dayMs) (by simp)
  · rw [wallClock, there]
    omega

/-- Nothing before the least midnight among the guesses has reached midnight. -/
theorem not_reached_of_least {earliest : Int} (hits : wallClock offset earliest = midnight)
    (least : ∀ instant ∈ guesses offset midnight, wallClock offset instant = midnight →
      earliest ≤ instant) : ∀ t < earliest, wallClock offset t < midnight := by
  intro t early
  by_contra reached
  have window := dayMs_window
  have shown : wallClock offset t = t + offset t := rfl
  have shownE : wallClock offset earliest = earliest + offset earliest := rfl
  have boundT := within t
  have boundE := within earliest
  have partT := parts t (by omega) (by omega)
  have partE := parts earliest (by omega) (by omega)
  by_cases isBefore : t < change
  · rw [if_pos isBefore] at partT
    obtain ⟨among, hit⟩ := guess_before within parts (by omega) (partT ▸ boundT)
    have later := least _ among hit
    omega
  · -- from the change on the clock goes on evenly
    rw [if_neg isBefore] at partT
    rw [if_neg (by omega)] at partE
    omega

/-- Without a midnight the clock reaches it by the change. -/
theorem reached_iff_change
    (noHit : ∀ instant ∈ guesses offset midnight, wallClock offset instant ≠ midnight)
    {t : Int} (low : midnight - searchWindowMs ≤ t) (high : t ≤ midnight + searchWindowMs) :
    midnight ≤ wallClock offset t ↔ change ≤ t := by
  have shown : wallClock offset t = t + offset t := rfl
  have bound := within t
  have part := parts t low high
  by_cases isBefore : t < change
  · rw [if_pos isBefore] at part
    have late : change ≤ midnight - before := by
      by_contra early
      obtain ⟨among, hit⟩ := guess_before within parts (by omega) (part ▸ bound)
      exact noHit _ among hit
    omega
  · rw [if_neg isBefore] at part
    have early : midnight - after < change := by
      by_contra late
      obtain ⟨among, hit⟩ := guess_after within parts (by omega) (part ▸ bound)
      exact noHit _ among hit
    omega

/-- The halving ends at the first instant that has reached midnight. -/
theorem firstReached_least
    (noHit : ∀ instant ∈ guesses offset midnight, wallClock offset instant ≠ midnight) {first : Int}
    (found : first = firstReached (fun instant => midnight ≤ wallClock offset instant)
      (midnight - searchWindowMs) (midnight + searchWindowMs)) :
    midnight ≤ wallClock offset first ∧ ∀ t < first, wallClock offset t < midnight := by
  have window := dayMs_window
  have positive : 0 < dayMs := by decide
  have shownLow : wallClock offset (midnight - searchWindowMs) =
      midnight - searchWindowMs + offset (midnight - searchWindowMs) := rfl
  have shownHigh : wallClock offset (midnight + searchWindowMs) =
      midnight + searchWindowMs + offset (midnight + searchWindowMs) := rfl
  have boundLow := within (midnight - searchWindowMs)
  have boundHigh := within (midnight + searchWindowMs)
  have miss : decide (midnight ≤ wallClock offset (midnight - searchWindowMs)) = false :=
    decide_eq_false (by omega)
  have hit : decide (midnight ≤ wallClock offset (midnight + searchWindowMs)) = true :=
    decide_eq_true (by omega)
  obtain ⟨above, below, hits, misses⟩ :=
    firstReached_spec (fun instant => midnight ≤ wallClock offset instant) (by omega) miss hit
  rw [← found] at above below hits misses
  have hits := of_decide_eq_true hits
  have misses := of_decide_eq_false misses
  refine ⟨hits, fun t early => ?_⟩
  have atFirst := (reached_iff_change within parts noHit above.le below).mp hits
  have atLast := reached_iff_change within parts noHit (t := first - 1) (by omega) (by omega)
  by_contra reached
  have shown : wallClock offset t = t + offset t := rfl
  have bound := within t
  have atT := (reached_iff_change within parts noHit (t := t) (by omega) (by omega)).mp (by omega)
  omega

end OneChange

end Window

/-- The start of a day is the least instant at which the clock shows the day or a later one. -/
theorem startOfDay_isLeast {offset : Offset} (within : offset.WithinDay) {number : Int}
    (once : offset.OneChange (dayMs * number)) :
    IsLeast (shownFrom offset number) (startOfDay offset number) := by
  obtain ⟨change, before, after, parts⟩ := once
  have spec : dayMs * number ≤ wallClock offset (startOfDay offset number) ∧
      ∀ t < startOfDay offset number, wallClock offset t < dayMs * number := by
    generalize midnightIs : dayMs * number = midnight at parts ⊢
    unfold startOfDay
    simp only [midnightIs]
    split
    · case h_1 earliest found =>
      obtain ⟨among, least⟩ := List.min?_eq_some_iff.mp found
      have hits : wallClock offset earliest = midnight := by
        simpa using (List.mem_filter.mp among).2
      refine ⟨hits.ge, not_reached_of_least within parts hits fun instant guess hit => ?_⟩
      exact least instant (List.mem_filter.mpr ⟨guess, decide_eq_true hit⟩)
    · case h_2 none =>
      have empty := List.min?_eq_none_iff.mp none
      refine firstReached_least within parts (fun instant guess hit => ?_) rfl
      exact List.filter_eq_nil_iff.mp empty instant guess (decide_eq_true hit)
  refine ⟨(mem_shownFrom ..).mpr spec.1, fun t shown => ?_⟩
  by_contra early
  exact absurd ((mem_shownFrom ..).mp shown) (not_le.mpr (spec.2 t (not_le.mp early)))

/-- The start of a date in a zone. -/
theorem startOfZonedDay_isLeast (zones : Zones) (date timeZone : Text) {offset : Offset}
    (known : zones timeZone = some offset) {year month day : Nat}
    (is : requireDate date = some (year, month, day)) (within : offset.WithinDay)
    (once : offset.OneChange (dayMs * dayNumber year month day)) :
    ∃ start, startOfZonedDay zones date timeZone = some start ∧
      IsLeast (shownFrom offset (dayNumber year month day)) start :=
  ⟨_, startOfZonedDay_eq known is, startOfDay_isLeast within once⟩

/-- `America/Santiago`, where the day of 2026-09-06 begins at one o'clock -/
def santiagoOffset : Offset := fun t => if t < 1788667200000 then -4 * hourMs else -3 * hourMs

theorem startOfZonedDay_isLeast_santiago :
    ∃ start, startOfZonedDay (fun _ => some santiagoOffset) "2026-09-06".toList
        "America/Santiago".toList = some start ∧
      IsLeast (shownFrom santiagoOffset (dayNumber 2026 9 6)) start := by
  refine startOfZonedDay_isLeast (fun _ => some santiagoOffset) _ _ rfl (by decide) (fun t => ?_)
    ⟨1788667200000, -4 * hourMs, -3 * hourMs, fun _ _ _ => rfl⟩
  rw [santiagoOffset]
  split <;> decide

/-- Twenty-five hours ahead until half an hour before the window of the guesses, then at UTC. -/
def farOffset : Offset := fun t => if t < -88200000 then 25 * hourMs else 0

/-- So far from UTC the least instant is missed. -/
theorem not_isLeast_far : ¬ ∀ (zones : Zones) (date timeZone : Text) (offset : Offset)
    (year month day : Nat), zones timeZone = some offset →
    requireDate date = some (year, month, day) →
    offset.OneChange (dayMs * dayNumber year month day) →
      ∃ start, startOfZonedDay zones date timeZone = some start ∧
        IsLeast (shownFrom offset (dayNumber year month day)) start := by
  intro all
  obtain ⟨start, is, _, least⟩ := all (fun _ => some farOffset) "1970-01-01".toList [] farOffset
    1970 1 1 rfl (by decide) ⟨-88200000, 25 * hourMs, 0, fun _ _ _ => rfl⟩
  have begun : startOfZonedDay (fun _ => some farOffset) "1970-01-01".toList [] = some 0 := by
    decide
  obtain rfl := Option.some.inj (begun.symm.trans is)
  have earlier : -90000000 ∈ shownFrom farOffset (dayNumber 1970 1 1) := by
    rw [mem_shownFrom]
    decide
  exact absurd (least earlier) (by decide)

end PrSearch.Query
