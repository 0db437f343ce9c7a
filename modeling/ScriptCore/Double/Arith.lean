import ScriptCore.Double.Basic

/-! Arithmetic on doubles.

Each operation is exact on units and rounds once. What is no number stays so; infinities follow the
rules of IEEE 754. -/
namespace ScriptCore.Double

/-- A sum of opposite numbers is a positive zero; a sum of negative zeros is negative. -/
def add (a b : Double) : Double :=
  if a.isNaN || b.isNaN then nan
  else if a.isInfinite then
    if b.isInfinite && a.isNegative != b.isNegative then nan else a
  else if b.isInfinite then b
  else
    let sum := a.units + b.units
    ofRatio (if sum = 0 then a.isNegative && b.isNegative else sum < 0) sum.natAbs 1

def sub (a b : Double) : Double := a.add b.neg

def mul (a b : Double) : Double :=
  let negative := a.isNegative != b.isNegative
  if a.isNaN || b.isNaN then nan
  else if a.isInfinite then if b.isZero then nan else infinity negative
  else if b.isInfinite then if a.isZero then nan else infinity negative
  else ofRatio negative (a.magnitude * b.magnitude) one

def div (a b : Double) : Double :=
  let negative := a.isNegative != b.isNegative
  if a.isNaN || b.isNaN then nan
  else if a.isInfinite then if b.isInfinite then nan else infinity negative
  else if b.isInfinite then zero negative
  else if b.isZero then if a.isZero then nan else infinity negative
  else ofRatio negative (a.magnitude * one) b.magnitude

/-- The remainder of the division toward zero. It is exact and has the dividend's sign. -/
def rem (a b : Double) : Double :=
  if a.isNaN || b.isNaN || a.isInfinite || b.isZero then nan
  else if b.isInfinite then a
  else ofRatio a.isNegative (a.magnitude % b.magnitude) 1

/-- The remainder moved to the side of zero where a positive modulus puts it. -/
def modulo (a b : Double) : Double :=
  let r := a.rem b
  if r.numLt (zero false) then r.add b.abs else r

/-- The integer part, toward zero; the sign of the number stays with a zero. -/
def trunc (d : Double) : Double :=
  if d.isFinite then ofRatio d.isNegative (d.magnitude / one * one) 1 else d

/-- Whether there is nothing after the point; infinities are not whole. -/
def isWhole (d : Double) : Bool := (d.sub d.trunc).numEq (zero false)

/-- The integer part if it lies in `[lo, hi]`. -/
def integerIn? (d : Double) (lo hi : Int) : Option Int :=
  if d.isFinite && decide (lo ≤ d.integerPart) && decide (d.integerPart ≤ hi) then some d.integerPart
  else none

/-- The integer part, moved to the nearer end of `[0, 2 ^ 32)` when it lies outside; what is no number
gives `0`. -/
def toUInt32 (d : Double) : UInt32 :=
  if d.isNaN then 0
  else if d.isInfinite then if d.isNegative then 0 else UInt32.ofNat (2 ^ 32 - 1)
  else UInt32.ofNat (min d.integerPart.toNat (2 ^ 32 - 1))

end ScriptCore.Double
