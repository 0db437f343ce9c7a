import ScriptCore.Decimal.Layout

/-! The shortest decimal that reads back as a given double.

The reals that round to a double form an interval around it, ends included iff the pattern is even.
Among the decimals in the interval with the fewest digits the nearest one is taken, the upper of two
equally near. -/
namespace ScriptCore.Decimal

/-- The number `significand * 10 ^ step`. -/
structure Scaled where
  significand : Nat
  step : Int
deriving DecidableEq

/-- Without zeros at the end of the significand; `fuel` bounds how many are looked for. -/
def Scaled.reduce : Nat → Scaled → Scaled
  | 0, n => n
  | fuel + 1, n =>
    if n.significand % 10 = 0 then Scaled.reduce fuel ⟨n.significand / 10, n.step + 1⟩ else n

/-- Twice the units of a decimal, as a fraction. -/
def Scaled.halfUnits (n : Scaled) : Nat × Nat :=
  match n.step with
  | .ofNat s => (2 * n.significand * 10 ^ s * Double.one, 1)
  | .negSucc s => (2 * n.significand * Double.one, 10 ^ (s + 1))

/-- Whether a decimal rounds to the double with the given pattern. -/
def Scaled.readsBackAs (n : Scaled) (pattern : Nat) : Bool :=
  let (num, den) := n.halfUnits
  let low := (Double.unitsOf (pattern - 1) + Double.unitsOf pattern) * den
  let high := (Double.unitsOf pattern + Double.unitsOf (pattern + 1)) * den
  if pattern % 2 = 0 then low ≤ num ∧ num ≤ high else low < num ∧ num < high

/-- The decimals with `count` digits next to a magnitude, below and above; which one reads back, and
the nearer if both do. -/
def shortestOf? (pattern count : Nat) : Option Scaled :=
  let units := Double.unitsOf pattern
  let step := leadingExponent units Double.one - (count - 1)
  let (num, den) : Nat × Nat := match step with
    | .ofNat s => (units, Double.one * 10 ^ s)
    | .negSucc s => (units * 10 ^ (s + 1), Double.one)
  let below : Scaled := ⟨num / den, step⟩
  let above : Scaled := ⟨num / den + 1, step⟩
  match below.readsBackAs pattern, above.readsBackAs pattern with
  | true, true => if den ≤ 2 * (num % den) then some above else some below
  | true, false => some below
  | false, true => some above
  | false, false => none

/-- The shortest decimal of a positive finite pattern. Seventeen digits are always enough. -/
def shortest (pattern : Nat) : Scaled :=
  match (List.range 17).findSome? fun i => shortestOf? pattern (i + 1) with
  | some n => n.reduce 17
  | none => ⟨0, 0⟩

/-- A decimal without exponent. -/
def Scaled.plain (n : Scaled) : List Char × List Char :=
  match n.step with
  | .ofNat s => (digits (n.significand * 10 ^ s), [])
  | .negSucc s => split (s + 1) n.significand

/-- A decimal with one digit before the point and an exponent. -/
def Scaled.exponential (n : Scaled) : List Char :=
  let ds := digits n.significand
  let exponent : Int := n.step + (ds.length - 1)
  pointed (ds.take 1) (ds.drop 1) ++ 'e' :: signed (exponent < 0) (digits exponent.natAbs)

end ScriptCore.Decimal

namespace ScriptCore.Double

/-- The shortest digits that read back, never with an exponent: `5e-324` has 324 places. -/
def positionalText (d : Double) : String :=
  if d.isNaN then "NaN"
  else if d.isInfinite then if d.isNegative then "-inf" else "inf"
  else
    let (whole, fraction) :=
      if d.isZero then (['0'], []) else (Decimal.shortest d.pattern).plain
    String.ofList (Decimal.signed d.isNegative (Decimal.pointed whole fraction))

/-- The shortest digits that read back, positional with at least one place for zero and for magnitudes
from `1e-4` up to but not including `1e16`, with an exponent otherwise. -/
def shortText (d : Double) : String :=
  if d.isNaN then "NaN"
  else if d.isInfinite then if d.isNegative then "-inf" else "inf"
  else if d.isZero then if d.isNegative then "-0.0" else "0.0"
  else
    let n := Decimal.shortest d.pattern
    let leading : Int := n.step + ((Decimal.digits n.significand).length - 1)
    String.ofList <| Decimal.signed d.isNegative <|
      if leading < -4 ∨ 16 ≤ leading then n.exponential
      else
        let (whole, fraction) := n.plain
        Decimal.pointed whole (if fraction.isEmpty then ['0'] else fraction)

end ScriptCore.Double
