import ScriptCore.Decimal.Digits
import ScriptCore.Decimal.Nearest
import ScriptCore.Double.Arith
import ScriptCore.Json.Document

/-! The values of JSON numbers.

A number without point, exponent and sign is a natural number if it has 64 bits. As a double it is the
product or the quotient of its significand, the leading digits that fit into 64 bits, and a power of ten.
Both are rounded on the way, so the result may differ from the nearest double in its last bit. A number
beyond the range of doubles has no value. -/
namespace ScriptCore.JsonNumber

def wordLimit : Nat := 2 ^ 64

/-- The natural number written, if it has 64 bits. -/
def toNat? (n : JsonNumber) : Option Nat :=
  let value := Decimal.valueOf n.whole
  if !n.negative && n.fraction.isEmpty && n.exponent?.isNone && value < wordLimit then some value
  else none

/-- Append digits to a significand as long as it has 64 bits. Once a digit does not fit, it and all that
follow are only counted. -/
def appendDigits (significand : Nat) : List Char → Nat × Nat
  | [] => (significand, 0)
  | d :: ds =>
    let next := 10 * significand + (d.toNat - 48)
    if next < wordLimit then appendDigits next ds else (significand, ds.length + 1)

/-- The significand and the power of ten of the digits before and behind the point. -/
def significand (n : JsonNumber) : Nat × Int :=
  let (whole, skipped) := appendDigits 0 n.whole
  let (all, lost) := appendDigits whole n.fraction
  (all, skipped - (n.fraction.length - lost : Nat))

def powerOfTen (e : Nat) : Double := Double.ofDecimal false 1 e

/-- Divide by `10 ^ e`, in steps of at most `10 ^ 308`, until nothing is left. -/
def scaleDown : Nat → Double → Nat → Double
  | 0, d, _ => d
  | fuel + 1, d, e =>
    if e ≤ 308 then d.div (powerOfTen e)
    else if d.isZero then d
    else scaleDown fuel (d.div (powerOfTen 308)) (e - 308)

/-- `significand * 10 ^ exponent`, nothing if it is beyond the range. -/
def scale? (significand : Nat) (exponent : Int) : Option Double :=
  let d := Double.ofNat significand
  match exponent with
  | .ofNat e =>
    if e ≤ 308 then
      let product := d.mul (powerOfTen e)
      if product.isInfinite then none else some product
    else if d.isZero then some d
    else none
  | .negSucc e => some (scaleDown (e + 1) d (e + 1))

/-- The exponent written behind the digits; one beyond 31 bits is as good as infinite. -/
def magnitude? (n : JsonNumber) : Option Double :=
  let (significand, shift) := n.significand
  match n.exponent? with
  | none => scale? significand shift
  | some (negative, ds) =>
    let e := Decimal.valueOf ds
    if e < 2 ^ 31 then scale? significand (shift + if negative then -(e : Int) else e)
    else if significand ≠ 0 ∧ !negative then none
    else some (Double.zero false)

/-- The double that a number denotes. -/
def toDouble? (n : JsonNumber) : Option Double :=
  n.magnitude?.map fun d => if n.negative then d.neg else d

end ScriptCore.JsonNumber
