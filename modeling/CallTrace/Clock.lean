/-
Clocks, and the time of day as text.

A clock counts seconds from its start and knows what time of day it was
started at. Ages and durations are taken from the count, time stamps from
the time of day.
-/
import CallTrace.Number.Decimal

namespace CallTrace

open Number (Double)

/-- Seconds since the start, and the time of day at the start in seconds
since the beginning of 1970. -/
structure Clock where
  elapsed : Double := .zero
  start : Double
deriving DecidableEq

namespace Clock

/-- The time of day. -/
def timeOfDay (c : Clock) : Double := c.start + c.elapsed

/-- The clock after some seconds. -/
def advance (c : Clock) (seconds : Double) : Clock :=
  { c with elapsed := c.elapsed + seconds }

end Clock

namespace Time

/-- Year, month and day of a day counted from the beginning of 1970.

Years are counted from March on, so that a leap day is the last day of its
year; 400 years have 146097 days, and the months from March on begin after
`(153 · month + 2) / 5` days. -/
def dateOfDay (day : Int) : Int × Int × Int :=
  let shifted := day + 719468
  let era := shifted.fdiv 146097
  let dayOfEra := shifted.fmod 146097
  let yearOfEra :=
    (dayOfEra - dayOfEra / 1460 + dayOfEra / 36524 - dayOfEra / 146096) / 365
  let dayOfYear :=
    dayOfEra - (365 * yearOfEra + yearOfEra / 4 - yearOfEra / 100)
  let month := (5 * dayOfYear + 2) / 153
  let dayOfMonth := dayOfYear - (153 * month + 2) / 5 + 1
  let calendarMonth := if month < 10 then month + 3 else month - 9
  let year := yearOfEra + era * 400 + (if calendarMonth ≤ 2 then 1 else 0)
  (year, calendarMonth, dayOfMonth)

/-- A number with leading zeros. -/
def padded (width : Nat) (n : Int) : String :=
  let ds := Number.digitsOf n.natAbs
  String.ofList (List.replicate (width - ds.length) '0' ++ ds)

/-- Whole seconds and millionths of a second of a time, the latter
rounded. -/
def split (t : Double) : Int × Int :=
  let whole := t.truncate
  let millionths := (t - .ofInt whole) * .ofInt 1000000
  let (num, den) := millionths.magnitude
  let n : Int := Double.roundHalfEven num den
  let n := if millionths.isNegative then -n else n
  if n ≥ 1000000 then (whole + 1, n - 1000000)
  else if n < 0 then (whole - 1, n + 1000000)
  else (whole, n)

/-- A time of day as text. Millionths are shown only where there are any. -/
def text (t : Double) : String :=
  let (seconds, millionths) := split t
  let (year, month, day) := dateOfDay (seconds.fdiv 86400)
  let second := seconds.fmod 86400
  let fraction := if millionths = 0 then "" else "." ++ padded 6 millionths
  padded 4 year ++ "-" ++ padded 2 month ++ "-" ++ padded 2 day ++ "T" ++
    padded 2 (second / 3600) ++ ":" ++ padded 2 (second / 60 % 60) ++ ":" ++
    padded 2 (second % 60) ++ fraction ++ "+00:00"

end Time

end CallTrace
