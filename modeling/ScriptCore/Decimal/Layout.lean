import ScriptCore.Decimal.Digits
import ScriptCore.Double.Basic

/-! Decimal roundings of a magnitude.

A magnitude is given as a fraction. `atPlaces` rounds it to a number of places after the point,
`atDigits` to a number of significant digits; both round the exact value once, ties to even. -/
namespace ScriptCore.Decimal

/-- `num / den` in steps of `10 ^ (-places)`. -/
def atPlaces (places num den : Nat) : Nat := roundHalfEven (num * 10 ^ places) den

/-- The exponent of the leading digit of `num / den`, both positive. -/
def leadingExponent (num den : Nat) : Int :=
  if den ≤ num then (digits (num / den)).length - 1
  else -(digits ((den - 1) / num)).length

/-- `num / den` in steps of `10 ^ step`. -/
def atStep (step : Int) (num den : Nat) : Nat :=
  match step with
  | .ofNat s => roundHalfEven num (den * 10 ^ s)
  | .negSucc s => roundHalfEven (num * 10 ^ (s + 1)) den

/-- A decimal significand of a fixed number of digits and the exponent of its first digit. -/
structure Scientific where
  significand : Nat
  exponent : Int
deriving DecidableEq

/-- `num / den` rounded to `count` significant digits. A carry into one digit more moves the exponent. -/
def atDigits (count num den : Nat) : Scientific :=
  let exponent := leadingExponent num den
  let significand := atStep (exponent - (count - 1)) num den
  if significand = 10 ^ count then ⟨10 ^ (count - 1), exponent + 1⟩ else ⟨significand, exponent⟩

end ScriptCore.Decimal

namespace ScriptCore.Double

/-- The digits of a finite double rounded to `places` after the point, without its sign. -/
def fixedRuns (places : Nat) (d : Double) : List Char × List Char :=
  Decimal.split places (Decimal.atPlaces places d.magnitude one)

end ScriptCore.Double
