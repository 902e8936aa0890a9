import Mathlib.Data.Int.Init
import PrSearch.Query.Dates

/-! # The days of a zone on the time line

The start of a day is the first instant at which the wall clock shows the day or a later one. So the
instants between the start of a day and the start of the next one are those at which the wall clock
shows the day, unless the clock is put back across one of its two midnights: then it shows the day
before once more after the day has begun, and an interval cannot tell.
-/
namespace PrSearch.Query

def hourMs : Int := 3600000

/-- A zone is at most 14 hours away from UTC, and its offset changes once in 48 hours at most. -/
structure Offset.Regular (offset : Offset) : Prop where
  bounded : ∀ t, -(14 * hourMs) ≤ offset t ∧ offset t ≤ 14 * hourMs
  apart : ∀ t later, t < later → offset (t - 1) ≠ offset t → offset (later - 1) ≠ offset later →
    48 * hourMs ≤ later - t

/-- The clock shows midnight or later, and earlier than midnight an instant after. -/
def PutBack (offset : Offset) (midnight : Int) : Prop :=
  ∃ t, midnight ≤ wallClock offset (t - 1) ∧ wallClock offset t < midnight

variable {t later number : Int}

/-! ### Offsets -/

section Offsets

variable {offset : Offset}

/-- An offset that does not change at any instant is the same at both ends. -/
theorem offset_eq_of_constant (le : t ≤ later)
    (constant : ∀ s, t < s → s ≤ later → offset (s - 1) = offset s) : offset later = offset t := by
  induction later, le using Int.leInduction with
  | base => rfl
  | succ later le ih =>
    have last := constant (later + 1) (by omega) (Int.le_refl _)
    rw [← last, Int.add_sub_cancel]
    exact ih fun s after before => constant s after (by omega)

/-- After a change there is none for the next 48 hours. -/
theorem Offset.Regular.after_change (regular : Offset.Regular offset)
    (change : offset (t - 1) ≠ offset t) (le : t ≤ later) (soon : later < t + 48 * hourMs) :
    offset later = offset t := by
  refine offset_eq_of_constant le fun s after before => ?_
  by_contra other
  have apart := regular.apart t s after change other
  omega

/-- In 48 hours there is one instant that parts the offset before from the offset after. -/
theorem Offset.Regular.exists_change (regular : Offset.Regular offset) (first : Int) :
    ∃ change, ∀ t, first ≤ t → t ≤ first + 48 * hourMs →
      offset t = if t < change then offset first else offset (first + 48 * hourMs) := by
  by_cases changes : ∃ s, first < s ∧ s ≤ first + 48 * hourMs ∧ offset (s - 1) ≠ offset s
  · obtain ⟨change, after, before, differs⟩ := changes
    refine ⟨change, fun t low high => ?_⟩
    split
    next early =>
      refine offset_eq_of_constant low fun s later sooner => ?_
      by_contra other
      have apart := regular.apart s change (by omega) other differs
      omega
    next late =>
      rw [regular.after_change differs (Int.not_lt.mp late) (by omega),
        regular.after_change differs before (by omega)]
  · -- without a change the offset is that of the end
    refine ⟨first, fun t low high => ?_⟩
    rw [if_neg (Int.not_lt.mpr low)]
    refine (offset_eq_of_constant high fun s after before => ?_).symm
    by_contra other
    exact changes ⟨s, by omega, before, other⟩

theorem wallClock_le (regular : Offset.Regular offset) (t : Int) :
    t - 14 * hourMs ≤ wallClock offset t ∧ wallClock offset t ≤ t + 14 * hourMs := by
  have bounded := regular.bounded t
  unfold wallClock
  omega

end Offsets

/-! ### The start of a day -/

/-- The halving ends at an instant that is reached, after one that is not. -/
theorem firstReached_spec (reached : Int → Bool) {before after : Int} (less : before < after)
    (low : reached before = false) (high : reached after = true) :
    before < firstReached reached before after ∧ firstReached reached before after ≤ after ∧
      reached (firstReached reached before after) = true ∧
        reached (firstReached reached before after - 1) = false := by
  fun_induction firstReached reached before after with
  | case1 before after wide middle hit ih =>
    have inside : before < middle ∧ middle < after := by omega
    obtain ⟨least, most, found⟩ := ih inside.1 low hit
    exact ⟨least, by omega, found⟩
  | case2 before after wide middle miss ih =>
    have inside : before < middle ∧ middle < after := by omega
    obtain ⟨least, most, found⟩ := ih inside.2 (by simpa using miss) high
    exact ⟨by omega, most, found⟩
  | case3 before after narrow =>
    have next_ : before = after - 1 := by omega
    exact ⟨less, Int.le_refl _, high, next_ ▸ low⟩

section Start

variable {offset : Offset} {midnight change : Int}

theorem dayMs_eq : dayMs = 24 * hourMs := rfl

theorem searchWindowMs_eq : searchWindowMs = 26 * hourMs := rfl

theorem hourMs_pos : 0 < hourMs := by decide

/-- The offset around a midnight: one value before the change and one after it. -/
def PartsAt (offset : Offset) (midnight change : Int) : Prop :=
  ∀ t, midnight - dayMs ≤ t → t ≤ midnight + dayMs →
    offset t = if t < change then offset (midnight - dayMs) else offset (midnight + dayMs)

/-- Nothing before the earlier one of the midnights that the clock shows has reached midnight. -/
theorem not_reached_of_earliest (regular : Offset.Regular offset)
    (parts : PartsAt offset midnight change) {earliest : Int}
    (hits : wallClock offset earliest = midnight)
    (least : ∀ instant, instant = midnight - offset (midnight - dayMs) →
      wallClock offset instant = midnight → earliest ≤ instant) :
    ∀ t < earliest, wallClock offset t < midnight := by
  intro t early
  by_contra reached
  have nearT := wallClock_le regular t
  have nearE := wallClock_le regular earliest
  have bounds := regular.bounded (midnight - dayMs)
  have shown : wallClock offset t = t + offset t := rfl
  have shownE : wallClock offset earliest = earliest + offset earliest := rfl
  have day := dayMs_eq
  have hour := hourMs_pos
  have partT := parts t (by omega) (by omega)
  have partE := parts earliest (by omega) (by omega)
  by_cases before : t < change
  · -- the midnight of the offset before the change is not later than `t`
    rw [if_pos before] at partT
    have part := parts (midnight - offset (midnight - dayMs)) (by omega) (by omega)
    rw [if_pos (by omega)] at part
    have among := least (midnight - offset (midnight - dayMs)) rfl (by rw [wallClock, part]; omega)
    omega
  · -- after the change the clock goes on evenly
    rw [if_neg before] at partT
    rw [if_neg (by omega)] at partE
    omega

/-- If neither offset has a midnight, the clock jumps over it at the change. -/
theorem reached_iff_of_no_midnight (regular : Offset.Regular offset)
    (parts : PartsAt offset midnight change)
    (noHit : ∀ instant, instant = midnight - offset (midnight - dayMs) ∨
      instant = midnight - offset (midnight + dayMs) → wallClock offset instant ≠ midnight)
    (low : midnight - dayMs ≤ t) (high : t ≤ midnight + dayMs) :
    midnight ≤ wallClock offset t ↔ change ≤ t := by
  have bounds := regular.bounded (midnight - dayMs)
  have bounds' := regular.bounded (midnight + dayMs)
  have day := dayMs_eq
  have hour := hourMs_pos
  have before : change ≤ midnight - offset (midnight - dayMs) := by
    by_contra early
    have part := parts (midnight - offset (midnight - dayMs)) (by omega) (by omega)
    rw [if_pos (by omega)] at part
    exact noHit _ (.inl rfl) (by rw [wallClock, part]; omega)
  have after : midnight - offset (midnight + dayMs) < change := by
    by_contra late
    have part := parts (midnight - offset (midnight + dayMs)) (by omega) (by omega)
    rw [if_neg (by omega)] at part
    exact noHit _ (.inr rfl) (by rw [wallClock, part]; omega)
  have part := parts t low high
  have shown : wallClock offset t = t + offset t := rfl
  split at part <;> omega

/-- The search ends at the first instant that has reached midnight. -/
theorem firstReached_midnight (regular : Offset.Regular offset)
    (reached_iff : ∀ t, midnight - dayMs ≤ t → t ≤ midnight + dayMs →
      (midnight ≤ wallClock offset t ↔ change ≤ t)) {first : Int}
    (found : first = firstReached (fun instant => midnight ≤ wallClock offset instant)
      (midnight - searchWindowMs) (midnight + searchWindowMs)) :
    midnight ≤ wallClock offset first ∧ ∀ t < first, wallClock offset t < midnight := by
  have near := wallClock_le regular
  have day := dayMs_eq
  have hour := hourMs_pos
  have window := searchWindowMs_eq
  have low := near (midnight - searchWindowMs)
  have high := near (midnight + searchWindowMs)
  have less : midnight - searchWindowMs < midnight + searchWindowMs := by omega
  have miss : decide (midnight ≤ wallClock offset (midnight - searchWindowMs)) = false :=
    decide_eq_false (by omega)
  have hit : decide (midnight ≤ wallClock offset (midnight + searchWindowMs)) = true :=
    decide_eq_true (by omega)
  obtain ⟨-, -, hits, misses⟩ :=
    firstReached_spec (fun instant => midnight ≤ wallClock offset instant) less miss hit
  rw [← found] at hits misses
  have hits := of_decide_eq_true hits
  have misses := of_decide_eq_false misses
  refine ⟨hits, fun t early => ?_⟩
  by_contra reached
  have nearT := near t
  have nearF := near (first - 1)
  -- the instant before the first one is reached too, if `t` is
  have at_ := (reached_iff t (by omega) (by omega)).mp (Int.not_lt.mp reached)
  have last := reached_iff (first - 1) (by omega) (by omega)
  omega

/-- The start of a day is the first instant at which its midnight has been reached. -/
theorem startOfDay_spec (regular : Offset.Regular offset) (number : Int) :
    dayMs * number ≤ wallClock offset (startOfDay offset number) ∧
      ∀ t < startOfDay offset number, wallClock offset t < dayMs * number := by
  obtain ⟨change, apart⟩ := regular.exists_change (dayMs * number - dayMs)
  generalize midnightIs : dayMs * number = midnight at apart ⊢
  have wide : midnight - dayMs + 48 * hourMs = midnight + dayMs := by
    rw [dayMs_eq]
    omega
  rw [wide] at apart
  have parts : PartsAt offset midnight change := apart
  have mem_candidates : ∀ instant, instant ∈ ([midnight - dayMs, midnight, midnight + dayMs].map
      fun probe => midnight - (wallClock offset probe - probe)) ↔
        instant = midnight - offset (midnight - dayMs) ∨ instant = midnight - offset midnight ∨
          instant = midnight - offset (midnight + dayMs) := by
    have guess : ∀ probe, wallClock offset probe - probe = offset probe := by
      intro probe
      unfold wallClock
      omega
    intro instant
    simp only [List.map_cons, List.map_nil, List.mem_cons, List.not_mem_nil, or_false, guess]
  unfold startOfDay
  simp only [midnightIs]
  split
  next earliest found =>
    obtain ⟨among, least⟩ := List.min?_eq_some_iff.mp found
    have hits : wallClock offset earliest = midnight := by
      simpa using (List.mem_filter.mp among).2
    refine ⟨Int.le_of_eq hits.symm, not_reached_of_earliest regular parts hits ?_⟩
    intro instant is hit
    exact least instant (List.mem_filter.mpr ⟨(mem_candidates instant).mpr (.inl is), by simpa using hit⟩)
  next none_ =>
    have empty := List.min?_eq_none_iff.mp none_
    have noHit : ∀ instant, instant = midnight - offset (midnight - dayMs) ∨
        instant = midnight - offset (midnight + dayMs) → wallClock offset instant ≠ midnight := by
      intro instant is hit
      have candidate := (mem_candidates instant).mpr (is.elim .inl fun late => .inr (.inr late))
      exact List.filter_eq_nil_iff.mp empty instant candidate (decide_eq_true hit)
    exact firstReached_midnight regular
      (fun t low high => reached_iff_of_no_midnight regular parts noHit low high) rfl

/-! ### The instants of a day -/

/-- Where the clock is not put back across a midnight, it stays reached from the start on. -/
theorem reached_iff_start_le (regular : Offset.Regular offset)
    (onward : ¬ PutBack offset (dayMs * number)) (t : Int) :
    dayMs * number ≤ wallClock offset t ↔ startOfDay offset number ≤ t := by
  obtain ⟨hits, misses⟩ := startOfDay_spec regular number
  constructor
  · intro reached
    by_contra early
    have miss := misses t (Int.not_le.mp early)
    omega
  · intro le
    induction t, le using Int.leInduction with
    | base => exact hits
    | succ t _ ih =>
      by_contra back
      exact onward ⟨t + 1, by rwa [Int.add_sub_cancel], Int.not_le.mp back⟩

/-- Put back across midnight, the clock shows midnight once more. -/
theorem exists_again (regular : Offset.Regular offset)
    (before : midnight ≤ wallClock offset (t - 1)) (after : wallClock offset t < midnight) :
    ∃ again, t ≤ again ∧ wallClock offset again = midnight := by
  have bounds := regular.bounded (t - 1)
  have bounds' := regular.bounded t
  have shown : wallClock offset (t - 1) = t - 1 + offset (t - 1) := rfl
  have shown' : wallClock offset t = t + offset t := rfl
  have hour := hourMs_pos
  have change : offset (t - 1) ≠ offset t := by omega
  refine ⟨t + (midnight - wallClock offset t), by omega, ?_⟩
  have same := regular.after_change change
    (show t ≤ t + (midnight - wallClock offset t) by omega) (by omega)
  rw [wallClock, same]
  omega

/-- The instants from the start of a day to the start of the next are those at which the clock shows
the day, exactly when it is not put back across either midnight. -/
theorem between_starts_iff (regular : Offset.Regular offset) (number : Int) :
    (∀ t, startOfDay offset number ≤ t ∧ t < startOfDay offset (number + 1) ↔
      dayMs * number ≤ wallClock offset t ∧ wallClock offset t < dayMs * (number + 1)) ↔
      ¬ PutBack offset (dayMs * number) ∧ ¬ PutBack offset (dayMs * (number + 1)) := by
  have start : ∀ {n t}, dayMs * n ≤ wallClock offset t → startOfDay offset n ≤ t := by
    intro n t reached
    by_contra early
    have miss := (startOfDay_spec regular n).2 t (Int.not_le.mp early)
    omega
  have longer : dayMs * number < dayMs * (number + 1) :=
    Int.mul_lt_mul_of_pos_left (Int.lt_succ number) (by decide)
  constructor
  · intro shows
    -- the clock cannot show the day again after the next one has begun
    have past : ∀ t, startOfDay offset (number + 1) ≤ t →
        dayMs * number ≤ wallClock offset (t - 1) → ¬ wallClock offset t < dayMs * number := by
      intro t late before after
      obtain ⟨again, later, midnight⟩ := exists_again regular before after
      have inside := (shows again).mpr ⟨Int.le_of_eq midnight.symm, by omega⟩
      omega
    constructor
    · rintro ⟨t, before, after⟩
      have begun := start before
      by_cases inside : t < startOfDay offset (number + 1)
      · have shown := (shows t).mp ⟨by omega, inside⟩
        omega
      · exact past t (Int.not_lt.mp inside) before after
    · rintro ⟨t, before, after⟩
      have begun := start before
      by_cases low : dayMs * number ≤ wallClock offset t
      · have inside := (shows t).mpr ⟨low, after⟩
        omega
      · exact past t (by omega) (by omega) (Int.not_le.mp low)
  · rintro ⟨onward, onward'⟩ t
    have first := reached_iff_start_le regular onward t
    have last := reached_iff_start_le regular onward' t
    omega

end Start

/-! ### Texts of instants -/

theorem dateText_shape (number : Int) {c : Char} (other : c.isDigit = false) (no : c ≠ '-') :
    c ∉ dateText number := by
  have line : ∃ year month day, dateText number = dateLine year month day := by
    by_cases early : number + epochDay < 0
    · exact ⟨0, 1, 1, dateText_of_neg early⟩
    · obtain ⟨year, month, day, -, -, text⟩ := exists_dateText (Int.not_lt.mp early)
      exact ⟨year, month, day, text⟩
  obtain ⟨year, month, day, text⟩ := line
  simp [text, dateLine, not_mem_pad other, no]

/-- Instants after the first day of the year 0 have texts of their own. -/
theorem toISOString_injective {a b : Int} (late : 0 < a / dayMs + epochDay)
    (same : toISOString a = toISOString b) : a = b := by
  obtain ⟨dates, times⟩ := append_cons_inj (dateText_shape _ rfl (by decide))
    (dateText_shape _ rfl (by decide)) same
  obtain ⟨hours, rest⟩ := append_cons_inj (not_mem_pad rfl) (not_mem_pad rfl) times
  obtain ⟨minutes, rest⟩ := append_cons_inj (not_mem_pad rfl) (not_mem_pad rfl) rest
  obtain ⟨seconds, rest⟩ := append_cons_inj (not_mem_pad rfl) (not_mem_pad rfl) rest
  have days := dateText_injective late dates
  have hours := pad_injective hours
  have minutes := pad_injective minutes
  have seconds := pad_injective seconds
  have millis := pad_injective (List.append_cancel_right rest)
  simp only [dayMs] at days hours minutes seconds millis
  omega

/-! ### Display and search -/

/-- The instant lies in a range of texts. -/
def LiesIn (range : Option (Text × Text)) (t : Int) : Prop :=
  ∃ start stop, range = some (toISOString start, toISOString stop) ∧ start ≤ t ∧ t < stop

/-- The range of one day exists, and its instants are those at which the clock shows the day. -/
def DayAgrees (zones : Zones) (timeZone : Text) (offset : Offset) (date : Text) : Prop :=
  (calendarRangeToUtc zones date date timeZone).isSome ∧
    ∀ t, LiesIn (calendarRangeToUtc zones date date timeZone) t ↔ zonedDate offset t = date

section Days

variable {zones : Zones} {timeZone date : Text} {offset : Offset} {year month day : Nat}

/-- The starts of days from the year 1 on lie after the first day of the year 0. -/
theorem startOfDay_late (regular : Offset.Regular offset) (late : 366 ≤ number + epochDay) :
    0 < startOfDay offset number / dayMs + epochDay := by
  have near := wallClock_le regular (startOfDay offset number)
  have reached := (startOfDay_spec regular number).1
  have hour : hourMs = 3600000 := rfl
  have epoch : epochDay = 719528 := rfl
  simp only [dayMs] at reached ⊢
  omega

theorem zonedDate_eq_iff (is : requireDate date = some (year, month, day)) (t : Int) :
    zonedDate offset t = date ↔
      dayMs * dayNumber year month day ≤ wallClock offset t ∧
        wallClock offset t < dayMs * (dayNumber year month day + 1) := by
  obtain ⟨isDay, positive, -, rfl⟩ := requireDate_iff.mp is
  have text : zonedDate offset t = dateLine year month day ↔
      wallClock offset t / dayMs = dayNumber year month day := by
    rw [zonedDate, ← dateText_dayNumber isDay positive]
    constructor
    · exact fun same => (dateText_injective (isDay.late positive) same.symm).symm
    · exact fun same => congrArg dateText same
  have day : dayMs = 86400000 := rfl
  rw [text, day]
  omega

/-- The last date of four digits is the one before the year 10000. -/
theorem eq_lastDate_iff (is : requireDate date = some (year, month, day)) :
    date = "9999-12-31".toList ↔ dayNumber year month day + 1 = dayNumber 10000 1 1 := by
  obtain ⟨isDay, positive, -, rfl⟩ := requireDate_iff.mp is
  have last : requireDate "9999-12-31".toList = some (9999, 12, 31) := by decide
  obtain ⟨isLast, positive', -, text⟩ := requireDate_iff.mp last
  have next_ : dayNumber 9999 12 31 + 1 = dayNumber 10000 1 1 := by decide
  rw [text]
  constructor
  · intro same
    obtain ⟨rfl, rfl, rfl⟩ := dateLine_injective same
    exact next_
  · intro same
    obtain ⟨rfl, rfl, rfl⟩ := dayNumber_inj isDay isLast (by omega)
    rfl

theorem startOfZonedDay_eq (known : zones timeZone = some offset)
    (is : requireDate date = some (year, month, day)) :
    startOfZonedDay zones date timeZone =
      some (startOfDay offset (dayNumber year month day)) := by
  simp [startOfZonedDay, is, known]

/-- The range of a day goes from its start to the start of the next day, if that has a date. -/
theorem calendarRangeToUtc_day (known : zones timeZone = some offset)
    (is : requireDate date = some (year, month, day)) :
    (date = "9999-12-31".toList → calendarRangeToUtc zones date date timeZone = none) ∧
      (date ≠ "9999-12-31".toList → calendarRangeToUtc zones date date timeZone =
        some (toISOString (startOfDay offset (dayNumber year month day)),
          toISOString (startOfDay offset (dayNumber year month day + 1)))) := by
  obtain ⟨isDay, positive, short, -⟩ := requireDate_iff.mp is
  have next_ : addDays date 1 = some (dateText (dayNumber year month day + 1)) := by
    simp [addDays, is]
  rw [calendarRangeToUtc, startOfZonedDay_eq known is, next_, Option.bind_some, Option.bind_some,
    ne_eq, eq_lastDate_iff is]
  constructor
  · intro last
    rw [last, startOfZonedDay, requireDate_dateText_none]
    rfl
  · intro before
    have january : IsDay 1 1 1 := ⟨by decide, by decide, by decide, by decide⟩
    have first : dayNumber 1 1 1 + epochDay = 366 := rfl
    have years : 366 ≤ daysBeforeYear year := daysBeforeYear_le positive
    have least := isDay.first
    have late : dayNumber 1 1 1 ≤ dayNumber year month day + 1 := by
      unfold dayNumber at *
      omega
    have years' : daysBeforeYear (year + 1) ≤ daysBeforeYear 10000 := daysBeforeYear_le short
    have early : dayNumber year month day + 1 < dayNumber 10000 1 1 := by
      have inYear := isDay.inYear
      rw [daysBeforeYear_succ] at years'
      have zero : daysBeforeMonth 10000 1 = 0 := rfl
      unfold dayNumber at *
      omega
    obtain ⟨year', month', day', is', numbered⟩ := requireDate_dateText late early
    rw [startOfZonedDay_eq known is', numbered]
    rfl

/-- The range of a day has the starts of the day and of the next one as its bounds. -/
theorem liesIn_iff (regular : Offset.Regular offset) (known : zones timeZone = some offset)
    (is : requireDate date = some (year, month, day)) (before : date ≠ "9999-12-31".toList) (t : Int) :
    LiesIn (calendarRangeToUtc zones date date timeZone) t ↔
      startOfDay offset (dayNumber year month day) ≤ t ∧
        t < startOfDay offset (dayNumber year month day + 1) := by
  obtain ⟨isDay, positive, -, -⟩ := requireDate_iff.mp is
  have years : 366 ≤ daysBeforeYear year := daysBeforeYear_le positive
  have least := isDay.first
  have late : 366 ≤ dayNumber year month day + epochDay := by
    unfold dayNumber
    omega
  rw [LiesIn, (calendarRangeToUtc_day known is).2 before]
  constructor
  · rintro ⟨start, stop, texts, low, high⟩
    obtain ⟨startText, stopText⟩ := Prod.mk.inj (Option.some.inj texts)
    rw [toISOString_injective (startOfDay_late regular late) startText,
      toISOString_injective (startOfDay_late regular (by omega)) stopText]
    exact ⟨low, high⟩
  · exact fun inside => ⟨_, _, rfl, inside⟩

end Days

/-- The search for a day finds the instants that are shown as that day, exactly when the next day has
a date of four digits and the clock is not put back across the midnight before or after the day. The
range of a day ends where the range of the next one begins. -/
theorem calendarDay_agrees_iff {zones : Zones} {timeZone date : Text} {offset : Offset}
    (known : zones timeZone = some offset) (regular : Offset.Regular offset) {year month day : Nat}
    (is : requireDate date = some (year, month, day)) :
    (DayAgrees zones timeZone offset date ↔
      date ≠ "9999-12-31".toList ∧ ¬ PutBack offset (dayMs * dayNumber year month day) ∧
        ¬ PutBack offset (dayMs * (dayNumber year month day + 1))) ∧
    ∀ next range range', addDays date 1 = some next →
      calendarRangeToUtc zones date date timeZone = some range →
      calendarRangeToUtc zones next next timeZone = some range' → range.2 = range'.1 := by
  constructor
  · by_cases last : date = "9999-12-31".toList
    · -- there is no range of the last date
      refine iff_of_false (fun agrees => ?_) fun met => met.1 last
      have range := agrees.1
      rw [(calendarRangeToUtc_day known is).1 last] at range
      cases range
    · have range : (calendarRangeToUtc zones date date timeZone).isSome := by
        rw [(calendarRangeToUtc_day known is).2 last]
        rfl
      rw [DayAgrees, ← between_starts_iff regular]
      simp only [liesIn_iff regular known is last, zonedDate_eq_iff is, range, true_and, ne_eq, last,
        not_false_eq_true]
  · intro next range range' isNext has has'
    obtain ⟨start, begun, rest⟩ := Option.bind_eq_some_iff.mp has
    obtain ⟨stop, ended, rfl⟩ := Option.map_eq_some_iff.mp rest
    obtain ⟨start', begun', rest'⟩ := Option.bind_eq_some_iff.mp has'
    obtain ⟨stop', -, rfl⟩ := Option.map_eq_some_iff.mp rest'
    rw [isNext, Option.bind_some, begun', Option.some.injEq] at ended
    rw [ended]

/-- `Asia/Seoul`, nine hours ahead -/
def seoulOffset : Offset := fun _ => 9 * hourMs

/-- A day in September agrees: nothing is put back in Seoul. -/
theorem calendarDay_agrees_seoul :
    DayAgrees (fun _ => some seoulOffset) "Asia/Seoul".toList seoulOffset "2026-09-27".toList := by
  have bounds : -(14 * hourMs) ≤ 9 * hourMs ∧ 9 * hourMs ≤ 14 * hourMs := by decide
  have regular : Offset.Regular seoulOffset :=
    ⟨fun _ => bounds, fun _ _ _ change => absurd rfl change⟩
  have onward : ∀ midnight, ¬ PutBack seoulOffset midnight := by
    rintro midnight ⟨t, before, after⟩
    unfold wallClock seoulOffset at *
    omega
  have is : requireDate "2026-09-27".toList = some (2026, 9, 27) := by decide
  have agrees := @calendarDay_agrees_iff (fun _ => some seoulOffset) "Asia/Seoul".toList
    "2026-09-27".toList seoulOffset rfl regular 2026 9 27 is
  exact agrees.1.mpr ⟨by decide, onward _, onward _⟩

/-- `America/St_Johns` in autumn 2010: one minute after midnight the clock is put back by an hour. -/
def stJohnsOffset : Offset := fun t => if t < 1289097060000 then -9000000 else -12600000

/-- One minute after midnight the search for the 7th of November still runs, and the clock shows the
6th again. -/
theorem stJohns_not_agrees :
    ¬ ∀ (zones : Zones) (timeZone date : Text) (offset : Offset), zones timeZone = some offset →
      Offset.Regular offset → (requireDate date).isSome → DayAgrees zones timeZone offset date := by
  intro all
  have regular : Offset.Regular stJohnsOffset := by
    have bounds : ∀ t, stJohnsOffset t = -9000000 ∨ stJohnsOffset t = -12600000 := by
      intro t
      unfold stJohnsOffset
      split <;> simp
    constructor
    · intro t
      have hour : hourMs = 3600000 := rfl
      have bound := bounds t
      omega
    · intro t later less change change'
      unfold stJohnsOffset at change change'
      split at change <;> split at change <;> split at change' <;> split at change' <;> omega
  have is : requireDate "2010-11-07".toList = some (2010, 11, 7) := by decide
  have agrees := all (fun _ => some stJohnsOffset) "America/St_Johns".toList "2010-11-07".toList
    stJohnsOffset rfl regular (by rw [is]; rfl)
  have begun : startOfDay stJohnsOffset (dayNumber 2010 11 7) = 1289097000000 := by decide
  have ended : startOfDay stJohnsOffset (dayNumber 2010 11 7 + 1) = 1289187000000 := by decide
  have range := (@calendarRangeToUtc_day (fun _ => some stJohnsOffset) "America/St_Johns".toList
    "2010-11-07".toList stJohnsOffset 2010 11 7 rfl is).2 (by decide)
  rw [begun, ended] at range
  have shown : zonedDate stJohnsOffset 1289097060000 = "2010-11-06".toList := by decide
  have inside := (agrees.2 1289097060000).mp ⟨_, _, range, by decide, by decide⟩
  rw [shown] at inside
  exact absurd inside (by decide)

end PrSearch.Query
