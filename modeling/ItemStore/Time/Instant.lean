import ItemStore.Decimal.Digits
import ItemStore.Time.Calendar

/-
Points in time and their ISO 8601 text.

An instant is a count of seconds since 1970-01-01T00:00:00Z and of nanoseconds
within the second. During a leap second the nanoseconds run on past a billion
while the count of seconds stays, so a leap second belongs to the second before
it. Texts are written in UTC with milliseconds and read with any offset.
-/
set_option autoImplicit false

namespace ItemStore.Time

open Decimal

/-- A point in time. Any count and any number of nanoseconds make an instant. Only those
with less than two billion are a second with its leap second; of the others the text
shows the remainder. -/
structure Instant where
  seconds : Int
  nanos : Nat
  deriving DecidableEq, Repr

/-! ## Writing -/

/-- A number with zeros in front up to a width. -/
def padded (width n : Nat) : List Char :=
  let digits := digitsOfNat n
  List.replicate (width - digits.length) '0' ++ digits

/-- A year; outside 0 to 9999 with a sign. A reader takes exactly four digits, so a text
with a sign is not read back. -/
def yearText (year : Int) : List Char :=
  if year < 0 then '-' :: padded 4 year.natAbs
  else if year ≤ 9999 then padded 4 year.natAbs
  else '+' :: padded 4 year.natAbs

/-- The instant in UTC with milliseconds, as in `2024-02-29T23:59:60.123Z`. This is
`format_date`. What is below a millisecond is dropped and not rounded. -/
def Instant.text (t : Instant) : List Char :=
  let date := Date.ofDays (t.seconds / 86400)
  let secondOfDay := (t.seconds % 86400).toNat
  -- a second that runs on is shown as the one after it, from its billionth nanosecond on
  let second := secondOfDay % 60 + if 1000000000 ≤ t.nanos then 1 else 0
  let millis := t.nanos / 1000000 % 1000
  yearText date.year ++ '-' :: padded 2 date.month ++ '-' :: padded 2 date.day ++
    'T' :: padded 2 (secondOfDay / 3600) ++ ':' :: padded 2 (secondOfDay / 60 % 60) ++
    ':' :: padded 2 second ++ '.' :: padded 3 millis ++ ['Z']

/-! ## Reading -/

/-- A number of exactly `width` digits at the front of a text. -/
def takeNumber? (width : Nat) (cs : List Char) : Option (Nat × List Char) :=
  let digits := cs.take width
  if digits.length = width ∧ digits.all isDigit then
    some (natOfDigits digits, cs.drop width)
  else none

/-- The rest of a text that starts with the given character. -/
def takeChar? (c : Char) : List Char → Option (List Char)
  | [] => none
  | d :: cs => if d = c then some cs else none

/-- The nanoseconds of an optional fraction; digits past the ninth are ignored. A point
without a digit is refused. -/
def takeFraction? : List Char → Option (Nat × List Char)
  | '.' :: cs =>
    let (digits, rest) := spanDigits cs
    if digits.isEmpty then none
    else
      -- nine digits are nanoseconds
      let used := digits.take 9
      some (natOfDigits used * Nat.pow 10 (9 - used.length), rest)
  | cs => some (0, cs)

/-- An offset from UTC in seconds: `Z`, or a sign with hours and minutes. The minus may
be the hyphen or the mathematical minus sign. There is no way around an offset: a text
without one names no instant. -/
def takeOffset? : List Char → Option (Int × List Char)
  | [] => none
  | c :: cs =>
    if c = 'Z' ∨ c = 'z' then some (0, cs)
    else if c = '+' ∨ c = '-' ∨ c = '\u2212' then do
      let (hours, cs) ← takeNumber? 2 cs
      let cs ← takeChar? ':' cs
      let (minutes, cs) ← takeNumber? 2 cs
      if hours < 24 ∧ minutes < 60 then
        let offset : Int := hours * 3600 + minutes * 60
        some (if c = '+' then offset else -offset, cs)
      else none
    else none

/-- A date as `YYYY-MM-DD`. -/
def takeDate? (cs : List Char) : Option (Date × List Char) := do
  let (year, cs) ← takeNumber? 4 cs
  let cs ← takeChar? '-' cs
  let (month, cs) ← takeNumber? 2 cs
  let cs ← takeChar? '-' cs
  let (day, cs) ← takeNumber? 2 cs
  let date : Date := { year, month, day }
  if date.isValid then some (date, cs) else none

/-- A time of day as `HH:MM:SS` with an optional fraction: seconds since midnight and
nanoseconds. Second 60 is a leap second, whatever the minute. A leap second is taken as
the second before it with a billion nanoseconds more. -/
def takeTime? (cs : List Char) : Option ((Nat × Nat) × List Char) := do
  let (hour, cs) ← takeNumber? 2 cs
  let cs ← takeChar? ':' cs
  let (minute, cs) ← takeNumber? 2 cs
  let cs ← takeChar? ':' cs
  let (second, cs) ← takeNumber? 2 cs
  let (nanos, cs) ← takeFraction? cs
  if hour < 24 ∧ minute < 60 ∧ second ≤ 60 then
    let minutes := hour * 60 + minute
    some (if second = 60 then (minutes * 60 + 59, nanos + 1000000000)
      else (minutes * 60 + second, nanos), cs)
  else none

/-- The instant a text names: date, `T`, `t` or a blank, time of day, offset. This is
`parse_date`. Nothing may follow the offset. -/
def Instant.read? (cs : List Char) : Option Instant := do
  let (date, cs) ← takeDate? cs
  match cs with
  | c :: cs =>
    if c = 'T' ∨ c = 't' ∨ c = ' ' then
      let ((second, nanos), cs) ← takeTime? cs
      let (offset, cs) ← takeOffset? cs
      if cs.isEmpty then
        some { seconds := date.toDays * 86400 + second - offset, nanos }
      else none
    else none
  | [] => none

end ItemStore.Time
