import ScriptCore.Decimal.Layout

/-! Numbers written as text.

A double is written in one of three layouts, chosen by its magnitude: whole numbers from `1e16` up to but
not including `1e21` without an exponent, magnitudes from `1e-6` to `1e-4` with up to ten places, and
everything else with sixteen significant digits, an exponent being used when it is below `-4` or at least
`16`. Zeros at the end of a fraction are cut off the finished text. -/
namespace ScriptCore

/-- The decimal numeral of an integer. -/
def int32Text (n : Int32) : String :=
  String.ofList (Decimal.signed (n.toInt < 0) (Decimal.digits n.toInt.natAbs))

namespace Double

/-- `10 ^ e` in units, and so in the scale of `magnitude`. -/
def powerOfTen (e : Nat) : Nat := 10 ^ e * one

/-- The magnitudes written without exponent though they have more than sixteen digits. -/
def isLongWhole (d : Double) : Bool := powerOfTen 16 ≤ d.magnitude && d.magnitude < powerOfTen 21

/-- The ends of the range written with ten places: the doubles nearest to `1e-6` and `1e-4`. -/
def smallFractionLow : Double := ⟨0x3eb0c6f7a0b5ed8d⟩
def smallFractionHigh : Double := ⟨0x3f1a36e2eb1c432d⟩

def isSmallFraction (d : Double) : Bool :=
  smallFractionLow.magnitude ≤ d.magnitude && d.magnitude ≤ smallFractionHigh.magnitude

/-- The sign and all the digits of a layout. -/
def laidOut (d : Double) (runs : List Char × List Char) : List Char :=
  Decimal.signed d.isNegative (Decimal.pointed runs.1 runs.2)

/-- A layout without zeros at the end of its fraction. -/
def written (d : Double) (runs : List Char × List Char) : List Char := Decimal.stripFraction (d.laidOut runs)

/-- Sixteen significant digits. The exponent is that of the rounded number, its sign always written. -/
def generalText (d : Double) : List Char :=
  let rounded := Decimal.atDigits 16 d.magnitude one
  if rounded.exponent < -4 ∨ 16 ≤ rounded.exponent then
    d.written (Decimal.split 15 rounded.significand) ++
      'e' :: (if rounded.exponent < 0 then '-' else '+') :: Decimal.digits rounded.exponent.natAbs
  else d.written (d.fixedRuns (15 - rounded.exponent).toNat)

/-- The characters of a finite double. Both zeros are written `0`. -/
def finiteText (d : Double) : List Char :=
  if d.isZero then ['0']
  else if d.isLongWhole then d.laidOut (d.fixedRuns 0)
  else if d.isSmallFraction then d.written (d.fixedRuns 10)
  else d.generalText

def text (d : Double) : String :=
  if d.isNaN then "NaN"
  else if d.isInfinite then if d.isNegative then "-inf" else "inf"
  else String.ofList d.finiteText

end Double
end ScriptCore
