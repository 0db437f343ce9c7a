import ScriptCore.Calendar

/-! The Gregorian clock.

Its dates are those of the Gregorian calendar, continued in both directions, with a year `0` before year `1`;
the calendar ends at the years `-262143` and `262142`. -/
namespace ScriptCore.Calendar

structure Date where
  year : Int
  /-- From `1` to `12`. -/
  month : Nat
  /-- From `1` to `31`. -/
  day : Nat
deriving DecidableEq

/-- The date a number of days after the first of January 1970. Years are counted from March, so that a
leap day is the last day of its year, in eras of 400 years. -/
def Date.ofDays (days : Int) : Date :=
  let sinceMarch := days + 719468
  let era := sinceMarch.fdiv 146097
  let dayOfEra := (sinceMarch.fmod 146097).toNat
  let yearOfEra := (dayOfEra - dayOfEra / 1460 + dayOfEra / 36524 - dayOfEra / 146096) / 365
  let dayOfYear := dayOfEra - (365 * yearOfEra + yearOfEra / 4 - yearOfEra / 100)
  let monthFromMarch := (5 * dayOfYear + 2) / 153
  let day := dayOfYear - (153 * monthFromMarch + 2) / 5 + 1
  let month := if monthFromMarch < 10 then monthFromMarch + 3 else monthFromMarch - 9
  ⟨yearOfEra + era * 400 + (if month ≤ 2 then 1 else 0), month, day⟩

def Date.inRange (d : Date) : Bool := -262143 ≤ d.year && d.year ≤ 262142

/-- The day of the week, from Sunday, `0`, to Saturday, `6`. -/
def weekday (days : Int) : Nat := ((days + 4).fmod 7).toNat

def weekdayName (n : Nat) : String := ["Sun", "Mon", "Tue", "Wed", "Thu", "Fri", "Sat"].getD n ""

def monthName (n : Nat) : String :=
  ["Jan", "Feb", "Mar", "Apr", "May", "Jun", "Jul", "Aug", "Sep", "Oct", "Nov", "Dec"].getD (n - 1) ""

/-- At least four digits; beyond four digits and before year `0` with a sign. -/
def yearText (year : Int) : String :=
  (if year < 0 then "-" else if 9999 < year then "+" else "") ++ padded 4 year.natAbs

/-- A second, numbered from the beginning of 1970. With `leap` the last second of a minute goes on as its
sixtieth. -/
structure Moment where
  second : Int
  leap : Bool

namespace Moment

def days (m : Moment) : Int := m.second.fdiv 86400
def ofDay (m : Moment) : Nat := (m.second.fmod 86400).toNat
def date (m : Moment) : Date := Date.ofDays m.days

/-- The field of a letter behind a percent sign; other letters stand for themselves. -/
def field (m : Moment) : Char → String
  | 'a' => weekdayName (weekday m.days)
  | 'b' => monthName m.date.month
  | 'd' => padded 2 m.date.day
  | 'Y' => yearText m.date.year
  | 'H' => padded 2 (m.ofDay / 3600)
  | 'M' => padded 2 (m.ofDay / 60 % 60)
  | 'S' => padded 2 (m.ofDay % 60 + if m.leap then 1 else 0)
  | c => String.ofList [c]

/-- A pattern with its fields filled in. -/
def fill (m : Moment) : List Char → String
  | '%' :: c :: rest => m.field c ++ m.fill rest
  | c :: rest => String.ofList [c] ++ m.fill rest
  | [] => ""

end Moment

def gregorian : Clock Moment where
  moment? seconds nanoseconds :=
    let moment : Moment := ⟨seconds.toInt, 10 ^ 9 ≤ nanoseconds.toNat⟩
    if moment.date.inRange && (!moment.leap || moment.ofDay % 60 = 59 && nanoseconds.toNat < 2 * 10 ^ 9) then
      some moment
    else none
  format pattern moment := moment.fill pattern.toList

end ScriptCore.Calendar
