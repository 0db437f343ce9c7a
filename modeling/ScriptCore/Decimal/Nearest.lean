import ScriptCore.Double.Basic

/-! The double nearest to a decimal number.

The decimal `digits * 10 ^ exponent` is rounded once from its exact value. Exponents far outside the
range of doubles are answered without computing the power: from `10 ^ 310` on everything is infinite,
and what is below half a unit is zero. -/
namespace ScriptCore.Double

/-- The double nearest to `digits * 10 ^ exponent`, ties to even, with the given sign. -/
def ofDecimal (negative : Bool) (digits : Nat) (exponent : Int) : Double :=
  if digits = 0 then zero negative
  else match exponent with
    | .ofNat e => if 310 ≤ e then infinity negative else ofRatio negative (digits * 10 ^ e * one) 1
    | .negSucc e =>
      if digits.log2 + 1076 ≤ 3 * (e + 1) then zero negative
      else ofRatio negative (digits * one) (10 ^ (e + 1))

end ScriptCore.Double
