import ScriptCore.Decimal.Digits
import ScriptCore.Double.Arith

/-! Points in time as dates.

A time is a number of milliseconds since the beginning of 1970, without leap seconds. Here it is split, by
operations on doubles, into a second and the nanoseconds after it. Which moment these are, and how it is
written, a clock knows (`Clock`); what may be relied on is stated apart from any clock (`Clock.Lawful`). -/
namespace ScriptCore.Calendar

/-- A clock finds the moment of a second and its nanoseconds, if there is one, and writes it by a pattern. -/
structure Clock (Moment : Type) where
  moment? : Int64 → UInt32 → Option Moment
  format : String → Moment → String

/-- The whole second of a time, by a division of doubles. -/
def wholeSecond (time : Double) : Int := (time.div (Double.ofNat 1000)).floor

/-- The whole second as a word of 64 bits, the nearest one if it is none. -/
def secondWord (time : Double) : Int64 := Int64.ofInt (max (-2 ^ 63) (min (2 ^ 63 - 1) (wholeSecond time)))

/-- The nanoseconds of a time within its second, by operations on doubles. Just below a whole second they
may be rounded up to a full second. -/
def nanoseconds (time : Double) : UInt32 :=
  ((time.modulo (Double.ofNat 1000)).mul (Double.ofNat 1000000)).toUInt32

def datePattern : String := "%a %b %d %Y %H:%M:%S GMT+0000"

/-- The text of a finite time that the clock has a moment for. -/
def timeTextBy {Moment : Type} (clock : Clock Moment) (time : Double) : Option String :=
  if time.isFinite then
    (clock.moment? (secondWord time) (nanoseconds time)).map (clock.format datePattern)
  else none

/-- A number with zeros in front. -/
def padded (width n : Nat) : String := String.ofList (Decimal.padLeft width (Decimal.digits n))

/-- What a clock is known to do, given the days of its calendar, numbered from the beginning of 1970, and the
text of each second up to its last field. -/
structure Clock.Lawful {Moment : Type} (clock : Clock Moment) (inRange : Int → Prop) (front : Int → String) :
    Prop where
  /-- The calendar ends before a hundred million days. -/
  day_bound : ∀ day, inRange day → -10 ^ 8 ≤ day ∧ day < 10 ^ 8
  /-- Nanoseconds that make a full second are accepted in the last second of a minute only, and never two. -/
  isSome_moment? : ∀ seconds nanoseconds, (clock.moment? seconds nanoseconds).isSome = true ↔
    inRange (seconds.toInt / 86400) ∧
      (nanoseconds.toNat < 10 ^ 9 ∨ seconds.toInt % 60 = 59 ∧ nanoseconds.toNat < 2 * 10 ^ 9)
  /-- The text depends on the second alone, but for a full second of nanoseconds, which is the sixtieth. -/
  format_eq : ∀ seconds nanoseconds moment, clock.moment? seconds nanoseconds = some moment →
    clock.format datePattern moment = front seconds.toInt ++
      padded 2 (if nanoseconds.toNat < 10 ^ 9 then (seconds.toInt % 60).toNat else 60) ++ " GMT+0000"

end ScriptCore.Calendar
