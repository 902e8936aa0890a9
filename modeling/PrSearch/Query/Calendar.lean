import PrSearch.Query.Parse

/-! # Calendar days of a time zone

A day of a zone begins at its first instant and ends where the next day begins. Mostly that is
midnight; where the clocks change at midnight it is the earlier one of two, or the instant of the
change. What a zone's wall clock shows is the runtime's.
-/
namespace PrSearch.Query

def dayMs : Int := 86400000

/-- How far the wall clock of a zone is ahead of UTC at an instant, in milliseconds. -/
abbrev Offset := Int → Int

/-- The zones that `Intl.DateTimeFormat` knows. -/
abbrev Zones := Text → Option Offset

/-! ### Dates -/

/-- The days of the years from 0 up to this one. -/
def daysBeforeYear (year : Nat) : Nat :=
  365 * year + (year + 3) / 4 + (year + 399) / 400 - (year + 99) / 100

def daysBeforeMonth (year : Nat) : Nat → Nat
  | 0 => 0
  | 1 => 0
  | month + 1 => daysBeforeMonth year month + daysInMonth year month

/-- The days from the first of January of the year 0 to the first of January 1970. -/
def epochDay : Int := 719528

/-- `utcWall` of a day, counted in days. -/
def dayNumber (year month day : Nat) : Int :=
  daysBeforeYear year + daysBeforeMonth year month + day - 1 - epochDay

def yearOf (days : Nat) : Nat :=
  let year := days * 400 / 146097
  if daysBeforeYear (year + 1) ≤ days then year + 1
  else if days < daysBeforeYear year then year - 1
  else year

/-- The month and the day of the month, from the days that are left of the year. -/
def monthAndDay (year : Nat) : Nat → Nat → Nat → Nat × Nat
  | 0, month, days => (month, days + 1)
  | later + 1, month, days =>
      if days < daysInMonth year month then (month, days + 1)
      else monthAndDay year later (month + 1) (days - daysInMonth year month)

/-- `String(value).padStart(width, '0')` -/
def pad (width value : Nat) : Text :=
  let digits := Nat.toDigits 10 value
  List.replicate (width - digits.length) '0' ++ digits

/-- The date of the day with this number. -/
def dateText (number : Int) : Text :=
  let days := (number + epochDay).toNat
  let year := yearOf days
  let (month, day) := monthAndDay year 11 1 (days - daysBeforeYear year)
  pad 4 year ++ '-' :: (pad 2 month ++ '-' :: pad 2 day)

def splitDate (value : Text) : Option (Nat × Nat × Nat) :=
  if dateOnly value then
    some (Nat.ofDigitChars 10 (value.take 4) 0, Nat.ofDigitChars 10 ((value.drop 5).take 2) 0,
      Nat.ofDigitChars 10 (value.drop 8) 0)
  else none

/-- `isCalendarDate`, with the parts of the date. Without a date `requireDate` throws. -/
def requireDate (value : Text) : Option (Nat × Nat × Nat) :=
  (splitDate value).filter fun (year, month, day) =>
    1 ≤ year && 1 ≤ month && month ≤ 12 && 1 ≤ day && day ≤ daysInMonth year month

def addDays (date : Text) (days : Int) : Option Text :=
  (requireDate date).map fun (year, month, day) => dateText (dayNumber year month day + days)

/-! ### Instants -/

def wallClock (offset : Offset) (epochMs : Int) : Int := epochMs + offset epochMs

/-- The date that the wall clock shows at an instant. -/
def zonedDate (offset : Offset) (epochMs : Int) : Text := dateText (wallClock offset epochMs / dayMs)

/-- `SEARCH_WINDOW_MS` -/
def searchWindowMs : Int := 26 * 3600000

/-- The loop that halves the window until its ends are one apart. -/
def firstReached (reached : Int → Bool) (before after : Int) : Int :=
  if 1 < after - before then
    let middle := (before + after) / 2
    if reached middle then firstReached reached before middle
    else firstReached reached middle after
  else after
termination_by (after - before).toNat
decreasing_by all_goals omega

/-- The first instant of a day, from the number of the day. -/
def startOfDay (offset : Offset) (number : Int) : Int :=
  let midnight := dayMs * number
  let candidates := [midnight - dayMs, midnight, midnight + dayMs].map fun probe =>
    midnight - (wallClock offset probe - probe)
  match (candidates.filter fun instant => wallClock offset instant = midnight).min? with
  | some earliest => earliest
  | none =>
      firstReached (fun instant => midnight ≤ wallClock offset instant)
        (midnight - searchWindowMs) (midnight + searchWindowMs)

/-- Without a date or a zone it throws. -/
def startOfZonedDay (zones : Zones) (date timeZone : Text) : Option Int :=
  (requireDate date).bind fun (year, month, day) =>
    (zones timeZone).map fun offset => startOfDay offset (dayNumber year month day)

/-- `Date.prototype.toISOString`, of the years from 0 to 9999 -/
def toISOString (epochMs : Int) : Text :=
  let inDay := (epochMs % dayMs).toNat
  dateText (epochMs / dayMs) ++ 'T' :: (pad 2 (inDay / 3600000) ++ ':' ::
    (pad 2 (inDay / 60000 % 60) ++ ':' :: (pad 2 (inDay / 1000 % 60) ++ '.' ::
      (pad 3 (inDay % 1000) ++ ['Z']))))

/-- `gte` and `lt`: from the first instant of the first day to that of the day after the last. -/
def calendarRangeToUtc (zones : Zones) (lower upper timeZone : Text) : Option (Text × Text) :=
  (startOfZonedDay zones lower timeZone).bind fun start =>
    ((addDays upper 1).bind fun next => startOfZonedDay zones next timeZone).map fun stop =>
      (toISOString start, toISOString stop)

end PrSearch.Query
