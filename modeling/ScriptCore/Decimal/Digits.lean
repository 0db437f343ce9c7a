import ScriptCore.Power

/-! Decimal digits as characters.

`digits` writes a natural number without leading zeros, `valueOf` reads any run of digits. A number with
a decimal point is a pair of runs, the integer digits and the fraction digits. -/
namespace ScriptCore.Decimal

/-- The decimal digits of `n`, most significant first; `0` has one. -/
def digits (n : Nat) : List Char := Nat.toDigits 10 n

/-- The value of one digit in a radix up to 36, letters in either case. -/
def digitValue? (radix : Nat) (c : Char) : Option Nat :=
  let value :=
    if '0' ≤ c ∧ c ≤ '9' then c.toNat - '0'.toNat
    else if 'a' ≤ c ∧ c ≤ 'z' then c.toNat - 'a'.toNat + 10
    else if 'A' ≤ c ∧ c ≤ 'Z' then c.toNat - 'A'.toNat + 10
    else 36
  if value < radix then some value else none

/-- A number with one digit more at its end. -/
def pushDigit (n : Nat) (c : Char) : Nat := 10 * n + (c.toNat - '0'.toNat)

/-- The number a run of decimal digits denotes. -/
def valueOf (ds : List Char) : Nat := ds.foldl pushDigit 0

theorem le_foldl_pushDigit (ds : List Char) (n : Nat) : n ≤ ds.foldl pushDigit n := by
  induction ds generalizing n with
  | nil => exact Nat.le_refl n
  | cons c ds ih =>
    have hstep : n ≤ pushDigit n c := by
      unfold pushDigit
      omega
    exact Nat.le_trans hstep (ih _)

/-- Zeros in front up to a width. -/
def padLeft (width : Nat) (ds : List Char) : List Char :=
  List.replicate (width - ds.length) '0' ++ ds

/-- The runs before and after the point of `n / 10 ^ places`, the second of length `places`. -/
def split (places n : Nat) : List Char × List Char :=
  (digits (n / 10 ^ places), if places = 0 then [] else padLeft places (digits (n % 10 ^ places)))

def dropTrailingZeros (ds : List Char) : List Char := (ds.reverse.dropWhile (· == '0')).reverse

/-- Drop the zeros at the end of a text with a point, and the point itself if nothing follows it. -/
def stripFraction (text : List Char) : List Char :=
  if '.' ∈ text then ((dropTrailingZeros text).reverse.dropWhile (· == '.')).reverse else text

/-- Both runs with a point between them; no point if there is no fraction. -/
def pointed (whole fraction : List Char) : List Char :=
  if fraction.isEmpty then whole else whole ++ '.' :: fraction

/-- A minus sign in front of what is negative. -/
def signed (negative : Bool) (text : List Char) : List Char := if negative then '-' :: text else text

end ScriptCore.Decimal
