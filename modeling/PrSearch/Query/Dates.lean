import PrSearch.Query.Calendar

/-! # Dates and the numbers of days

The days are numbered one after another, and a date is written in one way. So the date of a number can
be read back, and two texts that are dates are equal exactly when they have the same number.
-/
namespace PrSearch.Query

/-! ### Years and months -/

/-- A date with its year, month and day. -/
structure IsDay (year month day : Nat) : Prop where
  january : 1 ≤ month
  december : month ≤ 12
  first : 1 ≤ day
  last : day ≤ daysInMonth year month

-- a year has 365.2425 days, and never lags or leads by more than two
theorem daysBeforeYear_near (year : Nat) :
    400 * daysBeforeYear year ≤ 146097 * year + 800 ∧
      146097 * year ≤ 400 * daysBeforeYear year + 800 := by
  unfold daysBeforeYear
  constructor <;> omega

theorem yearOf_spec (days : Nat) :
    daysBeforeYear (yearOf days) ≤ days ∧ days < daysBeforeYear (yearOf days + 1) := by
  unfold yearOf
  dsimp only
  -- the estimate is off by one year at most
  have close : daysBeforeYear (days * 400 / 146097 - 1) ≤ days ∧
      days < daysBeforeYear (days * 400 / 146097 + 1 + 1) := by
    have before := daysBeforeYear_near (days * 400 / 146097 - 1)
    have after := daysBeforeYear_near (days * 400 / 146097 + 1 + 1)
    by_cases first : days * 400 / 146097 = 0
    · have zero : daysBeforeYear (days * 400 / 146097 - 1) = 0 := by
        rw [first]
        rfl
      omega
    · omega
  split
  next late => exact ⟨late, close.2⟩
  next =>
    split
    next early =>
      have positive : days * 400 / 146097 ≠ 0 := by
        intro zero
        rw [zero] at early
        exact absurd early (by simp [daysBeforeYear])
      rw [Nat.sub_add_cancel (Nat.pos_of_ne_zero positive)]
      exact ⟨close.1, early⟩
    next => omega

theorem daysBeforeYear_succ (year : Nat) :
    daysBeforeYear (year + 1) = daysBeforeYear year + daysBeforeMonth year 13 := by
  -- each quotient grows by one where its divisor divides the year
  have fours : (year + 1 + 3) / 4 = (year + 3) / 4 + if year % 4 = 0 then 1 else 0 := by
    split <;> omega
  have centuries : (year + 1 + 99) / 100 =
      (year + 99) / 100 + if year % 100 = 0 then 1 else 0 := by
    split <;> omega
  have cycles : (year + 1 + 399) / 400 =
      (year + 399) / 400 + if year % 400 = 0 then 1 else 0 := by
    split <;> omega
  have months : daysBeforeMonth year 13 = 365 +
      if (year % 4 = 0 ∧ year % 100 ≠ 0) ∨ year % 400 = 0 then 1 else 0 := by
    by_cases leap : (year % 4 = 0 ∧ year % 100 ≠ 0) ∨ year % 400 = 0
    · simp [daysBeforeMonth, daysInMonth, leap]
    · simp [daysBeforeMonth, daysInMonth, leap]
  have nested : year % 400 = 0 → year % 100 = 0 := by omega
  have nested' : year % 100 = 0 → year % 4 = 0 := by omega
  have enough : (year + 99) / 100 ≤ 365 * year + 1 := by omega
  have zero : year = 0 → (year + 3) / 4 + (year + 399) / 400 = (year + 99) / 100 := by omega
  rw [months, daysBeforeYear, fours, centuries, cycles, daysBeforeYear]
  by_cases four : year % 4 = 0 <;> by_cases century : year % 100 = 0 <;>
    by_cases cycle : year % 400 = 0 <;> simp [four, century, cycle] at nested nested' ⊢ <;> omega

variable {later width value length : Nat} {number : Int} {c : Char} {text digits : Text}

theorem daysBeforeYear_le {year : Nat} (le : year ≤ later) :
    daysBeforeYear year ≤ daysBeforeYear later := by
  induction le with
  | refl => exact Nat.le_refl _
  | step _ ih =>
    rw [daysBeforeYear_succ]
    exact Nat.le_add_right_of_le ih

theorem daysBeforeMonth_succ {year month : Nat} (january : 1 ≤ month) :
    daysBeforeMonth year (month + 1) = daysBeforeMonth year month + daysInMonth year month := by
  obtain ⟨before, rfl⟩ := Nat.exists_eq_add_of_le' january
  rfl

theorem daysBeforeMonth_le {year month : Nat} (january : 1 ≤ month) (le : month ≤ later) :
    daysBeforeMonth year month ≤ daysBeforeMonth year later := by
  induction le with
  | refl => exact Nat.le_refl _
  | step after ih =>
    rw [daysBeforeMonth_succ (Nat.le_trans january after)]
    exact Nat.le_add_right_of_le ih

/-- The loop over the months finds the one that the day lies in. -/
theorem monthAndDay_spec {year month days : Nat} (january : 1 ≤ month) (rest : month + later = 12)
    (inYear : daysBeforeMonth year month + days < daysBeforeMonth year 13) :
    IsDay year (monthAndDay year later month days).1 (monthAndDay year later month days).2 ∧
      daysBeforeMonth year (monthAndDay year later month days).1 +
        (monthAndDay year later month days).2 = daysBeforeMonth year month + days + 1 := by
  induction later generalizing month days with
  | zero =>
    obtain rfl : month = 12 := rest
    have last : daysBeforeMonth year 13 = daysBeforeMonth year 12 + daysInMonth year 12 :=
      daysBeforeMonth_succ january
    simp only [monthAndDay]
    refine ⟨⟨january, Nat.le_refl _, Nat.succ_pos days, ?_⟩, rfl⟩
    omega
  | succ later ih =>
    simp only [monthAndDay]
    split
    next inMonth => exact ⟨⟨january, by omega, Nat.succ_pos days, inMonth⟩, rfl⟩
    next after =>
      have next_ : daysBeforeMonth year (month + 1) + (days - daysInMonth year month) =
          daysBeforeMonth year month + days := by
        rw [daysBeforeMonth_succ january]
        omega
      have found := ih (Nat.le_add_left 1 month) (by omega) (by rw [next_]; exact inYear)
      rwa [next_] at found

/-! ### Numbers of days -/

section Days

variable {year month day year' month' day' : Nat}

/-- The day lies in its month. -/
theorem IsDay.inMonth (is : IsDay year month day) :
    daysBeforeMonth year month + day ≤ daysBeforeMonth year (month + 1) := by
  rw [daysBeforeMonth_succ is.january]
  exact Nat.add_le_add_left is.last _

/-- The day lies in its year. -/
theorem IsDay.inYear (is : IsDay year month day) :
    daysBeforeMonth year month + day ≤ daysBeforeMonth year 13 :=
  Nat.le_trans is.inMonth
    (daysBeforeMonth_le (Nat.le_add_left 1 month) (Nat.add_le_add_right is.december 1))

theorem year_le_of_dayNumber (is : IsDay year month day) (is' : IsDay year' month' day')
    (le : dayNumber year month day ≤ dayNumber year' month' day') : year ≤ year' := by
  by_contra later
  have years := daysBeforeYear_le (Nat.not_le.mp later)
  rw [Nat.succ_eq_add_one, daysBeforeYear_succ] at years
  have inYear := is'.inYear
  have first := is.first
  unfold dayNumber at le
  omega

theorem month_le_of_dayNumber (is : IsDay year month day) (is' : IsDay year month' day')
    (le : dayNumber year month day ≤ dayNumber year month' day') : month ≤ month' := by
  by_contra later
  have months : daysBeforeMonth year (month' + 1) ≤ daysBeforeMonth year month :=
    daysBeforeMonth_le (Nat.le_add_left 1 month') (Nat.not_le.mp later)
  have inMonth := is'.inMonth
  have first := is.first
  unfold dayNumber at le
  omega

/-- Different dates have different numbers. -/
theorem dayNumber_inj (is : IsDay year month day) (is' : IsDay year' month' day')
    (same : dayNumber year month day = dayNumber year' month' day') :
    year = year' ∧ month = month' ∧ day = day' := by
  obtain rfl := Nat.le_antisymm (year_le_of_dayNumber is is' (Int.le_of_eq same))
    (year_le_of_dayNumber is' is (Int.le_of_eq same.symm))
  obtain rfl := Nat.le_antisymm (month_le_of_dayNumber is is' (Int.le_of_eq same))
    (month_le_of_dayNumber is' is (Int.le_of_eq same.symm))
  refine ⟨rfl, rfl, ?_⟩
  unfold dayNumber at same
  omega

end Days

/-! ### Texts of dates -/

def dateLine (year month day : Nat) : Text :=
  pad 4 year ++ '-' :: (pad 2 month ++ '-' :: pad 2 day)

/-- Every day from the year 0 on has a date. -/
theorem exists_dateText (late : 0 ≤ number + epochDay) :
    ∃ year month day, IsDay year month day ∧ dayNumber year month day = number ∧
      dateText number = dateLine year month day := by
  obtain ⟨start, stop⟩ := yearOf_spec (number + epochDay).toNat
  rw [daysBeforeYear_succ] at stop
  have inYear : daysBeforeMonth (yearOf (number + epochDay).toNat) 1 +
      ((number + epochDay).toNat - daysBeforeYear (yearOf (number + epochDay).toNat)) <
        daysBeforeMonth (yearOf (number + epochDay).toNat) 13 := by
    have zero : daysBeforeMonth (yearOf (number + epochDay).toNat) 1 = 0 := rfl
    omega
  obtain ⟨is, sum⟩ := monthAndDay_spec (Nat.le_refl 1) (rfl : 1 + 11 = 12) inYear
  refine ⟨_, _, _, is, ?_, rfl⟩
  have zero : daysBeforeMonth (yearOf (number + epochDay).toNat) 1 = 0 := rfl
  unfold dayNumber
  omega

/-- Before the year 0 the text stands still at its first day. -/
theorem dateText_of_neg (early : number + epochDay < 0) : dateText number = dateLine 0 1 1 := by
  have none_ : (number + epochDay).toNat = 0 := Int.toNat_of_nonpos (Int.le_of_lt early)
  rw [dateText, none_]
  rfl

theorem ofDigitChars_pad (width value : Nat) : Nat.ofDigitChars 10 (pad width value) 0 = value := by
  rw [pad, Nat.ofDigitChars_append, Nat.ofDigitChars_replicate_zero, Nat.mul_zero,
    Nat.ofDigitChars_ten_toDigits]

theorem pad_isDigit (inside : c ∈ pad width value) : c.isDigit = true := by
  rcases List.mem_append.mp inside with zero | digit
  · rw [(List.mem_replicate.mp zero).2]
    rfl
  · exact Nat.isDigit_of_mem_toDigits (by decide) (by decide) digit

theorem pad_injective {value' : Nat} (same : pad width value = pad width value') :
    value = value' := by
  rw [← ofDigitChars_pad width value, same, ofDigitChars_pad]

/-- What stands before the first separator is told by the text. -/
theorem append_cons_inj {separator : Char} {left left' right right' : Text}
    (free : separator ∉ left) (free' : separator ∉ left')
    (same : left ++ separator :: right = left' ++ separator :: right') :
    left = left' ∧ right = right' := by
  induction left generalizing left' with
  | nil =>
    cases left' with
    | nil => exact ⟨rfl, (List.cons.inj same).2⟩
    | cons c rest =>
      obtain rfl := (List.cons.inj same).1
      exact absurd List.mem_cons_self free'
  | cons c rest ih =>
    cases left' with
    | nil =>
      obtain rfl := (List.cons.inj same).1
      exact absurd List.mem_cons_self free
    | cons c' rest' =>
      obtain ⟨heads, tails⟩ := List.cons.inj same
      obtain ⟨rests, rights⟩ := ih (fun inside => free (List.mem_cons_of_mem _ inside))
        (fun inside => free' (List.mem_cons_of_mem _ inside)) tails
      exact ⟨by rw [heads, rests], rights⟩

theorem not_mem_pad (other : c.isDigit = false) : c ∉ pad width value := by
  intro inside
  rw [pad_isDigit inside] at other
  cases other

theorem dateLine_injective {year month day year' month' day' : Nat}
    (same : dateLine year month day = dateLine year' month' day') :
    year = year' ∧ month = month' ∧ day = day' := by
  obtain ⟨years, same⟩ := append_cons_inj (not_mem_pad rfl) (not_mem_pad rfl) same
  obtain ⟨months, days⟩ := append_cons_inj (not_mem_pad rfl) (not_mem_pad rfl) same
  exact ⟨pad_injective years, pad_injective months, pad_injective days⟩

/-- Days after the first one of the year 0 have texts of their own. -/
theorem dateText_injective {other : Int} (late : 0 < number + epochDay)
    (same : dateText number = dateText other) : number = other := by
  obtain ⟨year, month, day, is, numbered, text⟩ := exists_dateText (Int.le_of_lt late)
  by_cases early : other + epochDay < 0
  · rw [text, dateText_of_neg early] at same
    obtain ⟨rfl, rfl, rfl⟩ := dateLine_injective same
    have first : dayNumber 0 1 1 = -epochDay := rfl
    omega
  · obtain ⟨year', month', day', -, numbered', text'⟩ := exists_dateText (Int.not_lt.mp early)
    rw [text, text'] at same
    obtain ⟨rfl, rfl, rfl⟩ := dateLine_injective same
    exact numbered.symm.trans numbered'

theorem IsDay.late {year month day : Nat} (is : IsDay year month day) (positive : 1 ≤ year) :
    0 < dayNumber year month day + epochDay := by
  have first := is.first
  have years : 366 ≤ daysBeforeYear year := daysBeforeYear_le positive
  unfold dayNumber
  omega

theorem dateText_dayNumber {year month day : Nat} (is : IsDay year month day)
    (positive : 1 ≤ year) : dateText (dayNumber year month day) = dateLine year month day := by
  obtain ⟨year', month', day', is', numbered, text⟩ :=
    exists_dateText (Int.le_of_lt (is.late positive))
  obtain ⟨rfl, rfl, rfl⟩ := dayNumber_inj is' is numbered
  exact text

/-! ### Reading dates -/

/-- A text of so many digits. -/
def DigitsOf (length : Nat) (text : Text) : Prop :=
  text.length = length ∧ ∀ c ∈ text, c.isDigit = true

theorem fits_digits {pattern : Text} :
    fits (List.replicate length 'd' ++ pattern) text = true ↔
      ∃ digits rest, text = digits ++ rest ∧ DigitsOf length digits ∧ fits pattern rest = true := by
  induction length generalizing text with
  | zero =>
    constructor
    · exact fun is => ⟨[], text, rfl, ⟨rfl, by simp⟩, is⟩
    · rintro ⟨digits, rest, rfl, ⟨none_, -⟩, is⟩
      rwa [List.length_eq_zero_iff.mp none_]
  | succ length ih =>
    rw [List.replicate_succ, List.cons_append]
    constructor
    · intro is
      cases text with
      | nil => cases is
      | cons c text =>
        simp only [fits, if_true, Bool.and_eq_true] at is
        obtain ⟨digits, rest, rfl, ⟨long, all⟩, fit⟩ := ih.mp is.2
        exact ⟨c :: digits, rest, rfl, ⟨by rw [List.length_cons, long],
          List.forall_mem_cons.mpr ⟨is.1, all⟩⟩, fit⟩
    · rintro ⟨digits, rest, rfl, ⟨long, all⟩, fit⟩
      cases digits with
      | nil => cases long
      | cons c digits =>
        obtain ⟨digit, all⟩ := List.forall_mem_cons.mp all
        have later := ih.mpr ⟨digits, rest, rfl, ⟨Nat.succ.inj long, all⟩, fit⟩
        simp only [List.cons_append, fits, if_true, digit, Bool.true_and]
        exact later

theorem fits_dash {pattern : Text} :
    fits ('-' :: pattern) text = true ↔ ∃ rest, text = '-' :: rest ∧ fits pattern rest = true := by
  cases text with
  | nil => simp [fits]
  | cons c text =>
    simp only [fits, Bool.and_eq_true, List.cons.injEq]
    constructor
    · rintro ⟨dash, fit⟩
      exact ⟨text, ⟨by simpa [eq_comm] using dash, rfl⟩, fit⟩
    · rintro ⟨rest, ⟨rfl, rfl⟩, fit⟩
      exact ⟨rfl, fit⟩

theorem dateOnly_iff :
    dateOnly text = true ↔ ∃ years months days, DigitsOf 4 years ∧ DigitsOf 2 months ∧
      DigitsOf 2 days ∧ text = years ++ '-' :: (months ++ '-' :: days) := by
  have shape : datePattern = List.replicate 4 'd' ++ '-' :: (List.replicate 2 'd' ++ '-' ::
      (List.replicate 2 'd' ++ [])) := rfl
  have nothing : ∀ rest : Text, fits [] rest = true ↔ rest = [] := by
    intro rest
    cases rest <;> simp [fits]
  rw [dateOnly, shape]
  simp only [fits_digits, fits_dash, nothing]
  constructor
  · rintro ⟨years, _, rfl, four, _, rfl, months, _, rfl, two, _, rfl, days, _, rfl, two', rfl⟩
    exact ⟨years, months, days, four, two, two', by rw [List.append_nil]⟩
  · rintro ⟨years, months, days, four, two, two', rfl⟩
    exact ⟨years, _, rfl, four, _, rfl, months, _, rfl, two, _, rfl, days, [],
      (List.append_nil days).symm, two', rfl⟩

theorem digit_of_isDigit (digit : c.isDigit = true) : 48 ≤ c.toNat ∧ c.toNat ≤ 57 := Char.isDigit_iff_toNat.mp digit

/-- The first digit and the rest of a numeral. -/
theorem ofDigitChars_cons_zero (c : Char) (digits : Text) :
    Nat.ofDigitChars 10 (c :: digits) 0 =
      10 ^ digits.length * (c.toNat - 48) + Nat.ofDigitChars 10 digits 0 := by
  rw [Nat.ofDigitChars_cons, Nat.ofDigitChars_eq_ofDigitChars_zero, Nat.mul_zero, Nat.zero_add]
  rfl

theorem ofDigitChars_lt (is : DigitsOf length digits) :
    Nat.ofDigitChars 10 digits 0 < 10 ^ length := by
  obtain ⟨rfl, all⟩ := is
  induction digits with
  | nil => simp
  | cons c digits ih =>
    obtain ⟨digit, all⟩ := List.forall_mem_cons.mp all
    have value := digit_of_isDigit digit
    have rest := ih all
    have most : 10 ^ digits.length * (c.toNat - 48) ≤ 10 ^ digits.length * 9 :=
      Nat.mul_le_mul_left _ (by omega)
    rw [ofDigitChars_cons_zero, List.length_cons, Nat.pow_succ]
    omega

/-- Numerals of one length are told apart by their values. -/
theorem digits_injective {digits' : Text} (is : DigitsOf length digits)
    (is' : DigitsOf length digits')
    (same : Nat.ofDigitChars 10 digits 0 = Nat.ofDigitChars 10 digits' 0) : digits = digits' := by
  induction length generalizing digits digits' with
  | zero => rw [List.length_eq_zero_iff.mp is.1, List.length_eq_zero_iff.mp is'.1]
  | succ length ih =>
    cases digits with
    | nil => cases is.1
    | cons c rest =>
      cases digits' with
      | nil => cases is'.1
      | cons c' rest' =>
        obtain ⟨digit, all⟩ := List.forall_mem_cons.mp is.2
        obtain ⟨digit', all'⟩ := List.forall_mem_cons.mp is'.2
        have long : rest.length = length := Nat.succ.inj is.1
        have long' : rest'.length = length := Nat.succ.inj is'.1
        have less := ofDigitChars_lt ⟨long, all⟩
        have less' := ofDigitChars_lt ⟨long', all'⟩
        rw [ofDigitChars_cons_zero, ofDigitChars_cons_zero, long, long'] at same
        -- the first digit is the quotient, the rest the remainder
        have quotient := congrArg (· / 10 ^ length) same
        have remainder := congrArg (· % 10 ^ length) same
        simp only [Nat.mul_add_div (Nat.pow_pos (show 0 < 10 by decide)), Nat.div_eq_of_lt less,
          Nat.div_eq_of_lt less', Nat.add_zero] at quotient
        simp only [Nat.mul_add_mod, Nat.mod_eq_of_lt less, Nat.mod_eq_of_lt less'] at remainder
        have value := digit_of_isDigit digit
        have value' := digit_of_isDigit digit'
        have chars : c = c' := Char.toNat_inj.mp (by omega)
        rw [chars, ih ⟨long, all⟩ ⟨long', all'⟩ remainder]

/-- A number that is short enough is padded to the width. -/
theorem digitsOf_pad (positive : 0 < width) (short : value < 10 ^ width) :
    DigitsOf width (pad width value) := by
  have long : (Nat.toDigits 10 value).length ≤ width :=
    (Nat.length_toDigits_le_iff (by decide) positive).mpr short
  refine ⟨?_, fun c => pad_isDigit⟩
  rw [pad, List.length_append, List.length_replicate, Nat.sub_add_cancel long]

theorem pad_ofDigitChars (positive : 0 < width) (is : DigitsOf width digits) :
    pad width (Nat.ofDigitChars 10 digits 0) = digits :=
  digits_injective (digitsOf_pad positive (ofDigitChars_lt is)) is (ofDigitChars_pad _ _)

/-- The parts of a text that is shaped as a date. -/
theorem splitDate_shape {years months days : Text} (four : DigitsOf 4 years)
    (two : DigitsOf 2 months) (two' : DigitsOf 2 days) :
    splitDate (years ++ '-' :: (months ++ '-' :: days)) =
      some (Nat.ofDigitChars 10 years 0, Nat.ofDigitChars 10 months 0,
        Nat.ofDigitChars 10 days 0) := by
  have shaped := dateOnly_iff.mpr ⟨years, months, days, four, two, two', rfl⟩
  have first : (years ++ '-' :: (months ++ '-' :: days)).take 4 = years := by
    rw [← four.1, List.take_left]
  have rest : (years ++ '-' :: (months ++ '-' :: days)).drop 5 = months ++ '-' :: days := by
    rw [List.drop_append, four.1, List.drop_eq_nil_of_le (by rw [four.1]; decide)]
    rfl
  have last : (years ++ '-' :: (months ++ '-' :: days)).drop 8 = days := by
    have further : (8 : Nat) = 5 + 3 := rfl
    rw [further, ← List.drop_drop, rest, List.drop_append, two.1,
      List.drop_eq_nil_of_le (by rw [two.1]; decide)]
    rfl
  have second : (months ++ '-' :: days).take 2 = months := by
    rw [← two.1, List.take_left]
  rw [splitDate, if_pos shaped, first, rest, second, last]

/-- A text is a date exactly when it is written as the date of a day from the year 1 to 9999. -/
theorem requireDate_iff {date : Text} {year month day : Nat} :
    requireDate date = some (year, month, day) ↔
      IsDay year month day ∧ 1 ≤ year ∧ year < 10000 ∧ date = dateLine year month day := by
  have short : ∀ {year month day : Nat}, IsDay year month day → month < 10 ^ 2 ∧ day < 10 ^ 2 := by
    intro year month day is
    have last : daysInMonth year month ≤ 31 := by
      unfold daysInMonth
      split
      · split <;> decide
      · split <;> decide
    have december := is.december
    have least := is.last
    omega
  constructor
  · intro required
    obtain ⟨split_, checks⟩ := Option.filter_eq_some_iff.mp required
    simp only [Bool.and_eq_true, decide_eq_true_eq] at checks
    obtain ⟨⟨⟨⟨positive, january⟩, december⟩, first⟩, last⟩ := checks
    have shaped : dateOnly date = true := by
      unfold splitDate at split_
      split at split_
      next shaped => exact shaped
      next => cases split_
    obtain ⟨years, months, days, four, two, two', rfl⟩ := dateOnly_iff.mp shaped
    rw [splitDate_shape four two two', Option.some.injEq, Prod.mk.injEq, Prod.mk.injEq] at split_
    obtain ⟨rfl, rfl, rfl⟩ := split_
    refine ⟨⟨january, december, first, last⟩, positive, ofDigitChars_lt four, ?_⟩
    rw [dateLine, pad_ofDigitChars (by decide) four, pad_ofDigitChars (by decide) two,
      pad_ofDigitChars (by decide) two']
  · rintro ⟨is, positive, late, rfl⟩
    obtain ⟨monthShort, dayShort⟩ := short is
    have parts := splitDate_shape (digitsOf_pad (by decide) (show year < 10 ^ 4 from late))
      (digitsOf_pad (by decide) monthShort) (digitsOf_pad (by decide) dayShort)
    simp only [ofDigitChars_pad] at parts
    rw [requireDate, dateLine, parts]
    simp [positive, is.january, is.december, is.first, is.last]

/-- The date of a day up to the year 9999 is read back with the day's number. -/
theorem requireDate_dateText (late : dayNumber 1 1 1 ≤ number)
    (early : number < dayNumber 10000 1 1) :
    ∃ year month day, requireDate (dateText number) = some (year, month, day) ∧
      dayNumber year month day = number := by
  have first : dayNumber 1 1 1 + epochDay = 366 := rfl
  obtain ⟨year, month, day, is, rfl, text⟩ := exists_dateText (show 0 ≤ number + epochDay by omega)
  have january : IsDay 1 1 1 := ⟨by decide, by decide, by decide, by decide⟩
  have positive : 1 ≤ year := year_le_of_dayNumber january is late
  have short : year < 10000 := by
    by_contra long
    have years := daysBeforeYear_le (Nat.not_lt.mp long)
    have least := is.first
    have january' : daysBeforeMonth 10000 1 = 0 := rfl
    unfold dayNumber at early
    omega
  exact ⟨year, month, day, requireDate_iff.mpr ⟨is, positive, short, text⟩, rfl⟩

/-- The day after the last one has no date of four digits. -/
theorem requireDate_dateText_none : requireDate (dateText (dayNumber 10000 1 1)) = none := by
  cases required : requireDate (dateText (dayNumber 10000 1 1)) with
  | none => rfl
  | some parts =>
    obtain ⟨year, month, day⟩ := parts
    obtain ⟨-, -, short, text⟩ := requireDate_iff.mp required
    have first : IsDay 10000 1 1 := ⟨by decide, by decide, by decide, by decide⟩
    rw [dateText_dayNumber first (by decide)] at text
    have same := (dateLine_injective text).1
    omega

end PrSearch.Query
