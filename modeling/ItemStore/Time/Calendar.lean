/-
The Gregorian calendar, extended to all years.

Days are counted from 1970-01-01. The count is taken in years that begin in
March, so that the leap day is the last day of its year, and in eras of 400
years, which all have 146097 days; both directions are then plain division.
-/
set_option autoImplicit false

namespace ItemStore.Time

/-- A calendar day. -/
structure Date where
  year : Int
  month : Nat
  day : Nat
  deriving DecidableEq, Repr

/-- Every fourth year, except centuries that four hundred does not divide. -/
def isLeapYear (year : Int) : Bool :=
  year % 4 = 0 && (year % 100 != 0 || year % 400 = 0)

/-- How many days a month has; months other than 1 to 12 have none. -/
def daysInMonth (year : Int) (month : Nat) : Nat :=
  if month = 2 then (if isLeapYear year then 29 else 28)
  else if month = 4 ∨ month = 6 ∨ month = 9 ∨ month = 11 then 30
  else if 1 ≤ month ∧ month ≤ 12 then 31
  else 0

/-- A date that is in the calendar. -/
def Date.isValid (d : Date) : Bool := 1 ≤ d.day && d.day ≤ daysInMonth d.year d.month

/-- Days before the given month in a year that begins in March. -/
def daysBeforeMonth (month : Nat) : Nat :=
  let sinceMarch := (month + 9) % 12
  (153 * sinceMarch + 2) / 5

/-- Days from 1970-01-01 to a date. It is defined for all dates, also for some that are
not in the calendar, and is one to one on those that are. -/
def Date.toDays (d : Date) : Int :=
  let year := if d.month ≤ 2 then d.year - 1 else d.year
  let era := year / 400
  let yearOfEra := year % 400
  let dayOfYear : Int := daysBeforeMonth d.month + d.day - 1
  let dayOfEra := yearOfEra * 365 + yearOfEra / 4 - yearOfEra / 100 + dayOfYear
  era * 146097 + dayOfEra - 719468

/-- The date a number of days after 1970-01-01. It is the inverse of `Date.toDays` on
the dates of the calendar, in both directions. -/
def Date.ofDays (days : Int) : Date :=
  -- days since the first of March of the year 0, where an era begins
  let shifted := days + 719468
  let era := shifted / 146097
  let dayOfEra := shifted % 146097
  -- the leap days before the day are taken out, and what is left are years of 365 days
  let yearOfEra :=
    (dayOfEra - dayOfEra / 1460 + dayOfEra / 36524 - dayOfEra / 146096) / 365
  let dayOfYear := dayOfEra - (365 * yearOfEra + yearOfEra / 4 - yearOfEra / 100)
  let sinceMarch := ((5 * dayOfYear + 2) / 153).toNat
  let month := (sinceMarch + 2) % 12 + 1
  let day := (dayOfYear - (153 * sinceMarch + 2) / 5 + 1).toNat
  let year := yearOfEra + era * 400
  -- January and February belong to the year that began in March before them
  { year := if month ≤ 2 then year + 1 else year, month, day }

end ItemStore.Time
