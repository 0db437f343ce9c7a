import ScriptCore.Rounding

/-! Binary64 numbers as 64-bit words.

The lower 63 bits of a word, its *pattern*, grow with the magnitude they stand for: patterns below
`2 ^ 52` are subnormal, `infinityPattern` is infinity, and what lies above is no number. Every finite
magnitude is a whole number of *units* of `2 ^ (-1074)`, so arithmetic on doubles is arithmetic on
integers followed by one rounding, `ofRatio`. -/
namespace ScriptCore

/-- A binary64 number, any of the `2 ^ 64` bit patterns. -/
structure Double where
  bits : UInt64
deriving DecidableEq

namespace Double

/-! ### Words -/

/-- Exponent and fraction, without the sign. -/
def pattern (d : Double) : Nat := d.bits.toNat % 2 ^ 63

/-- The sign bit, which zeros and what is no number have as well. -/
def isNegative (d : Double) : Bool := 2 ^ 63 ≤ d.bits.toNat

def ofPattern (negative : Bool) (pattern : Nat) : Double :=
  ⟨UInt64.ofNat ((if negative then 2 ^ 63 else 0) + pattern)⟩

def infinityPattern : Nat := 2047 * 2 ^ 52

def isNaN (d : Double) : Bool := infinityPattern < d.pattern
def isInfinite (d : Double) : Bool := d.pattern = infinityPattern
def isFinite (d : Double) : Bool := d.pattern < infinityPattern
def isZero (d : Double) : Bool := d.pattern = 0

def nan : Double := ⟨0x7ff8000000000000⟩
def zero (negative : Bool) : Double := ofPattern negative 0
def infinity (negative : Bool) : Double := ofPattern negative infinityPattern

/-- The largest finite magnitude. -/
def largest : Double := ⟨0x7fefffffffffffff⟩

/-- The smallest magnitude above zero, one unit. -/
def smallest : Double := ⟨1⟩

def neg (d : Double) : Double := ofPattern (!d.isNegative) d.pattern
def abs (d : Double) : Double := ofPattern false d.pattern

/-! ### Magnitudes in units -/

/-- The number of units in `1`. -/
def one : Nat := 2 ^ 1074

/-- The magnitude of a pattern in units. The formula goes on past infinity, where it gives the next
power of two. -/
def unitsOf (pattern : Nat) : Nat :=
  if pattern < 2 ^ 52 then pattern
  else (2 ^ 52 + pattern % 2 ^ 52) * 2 ^ (pattern / 2 ^ 52 - 1)

def magnitude (d : Double) : Nat := unitsOf d.pattern

/-- A finite double in units. -/
def units (d : Double) : Int := if d.isNegative then -d.magnitude else d.magnitude

/-- The pattern nearest to `num / den` units. With `shift` the exponent of the leading 53 bits, the
rounded bits are added to the exponent field, so a carry out of them ends up where it belongs. -/
def roundUnits (num den : Nat) : Nat :=
  let shift := (num / den).log2 - 52
  min infinityPattern (shift * 2 ^ 52 + roundHalfEven num (den * 2 ^ shift))

/-- The double nearest to `num / den` units, ties to even, infinity from half a step beyond `largest`. -/
def ofRatio (negative : Bool) (num den : Nat) : Double := ofPattern negative (roundUnits num den)

/-! ### Order -/

/-- Numbers are in the order of their keys; both zeros have the key `0`. -/
def key (d : Double) : Int := if d.isNegative then -d.pattern else d.pattern

def numEq (a b : Double) : Bool := !a.isNaN && !b.isNaN && a.key == b.key
def numLt (a b : Double) : Bool := !a.isNaN && !b.isNaN && decide (a.key < b.key)
def numLe (a b : Double) : Bool := !a.isNaN && !b.isNaN && decide (a.key ≤ b.key)

/-! ### Integers -/

def ofNat (n : Nat) : Double := ofRatio false (n * one) 1

/-- The double nearest to an integer; zero is positive. -/
def ofInt (n : Int) : Double := ofRatio (n < 0) (n.natAbs * one) 1

/-- The integer part of a finite double, toward zero. -/
def integerPart (d : Double) : Int := d.units.tdiv one

/-- The greatest integer not above a finite double. -/
def floor (d : Double) : Int := d.units.fdiv one

end Double

/-- A double that is neither infinite nor no number. -/
structure FiniteDouble where
  val : Double
  isFinite : val.isFinite = true
deriving DecidableEq

end ScriptCore
