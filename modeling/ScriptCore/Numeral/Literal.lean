import ScriptCore.Numeral.Blank
import ScriptCore.Decimal.Digits
import ScriptCore.Decimal.Nearest
import ScriptCore.Double.Arith

/-! Numerals read from text.

Between blanks stands nothing, which is zero, or one literal: digits of some radix, or an optional sign
before `Infinity` or a decimal with an optional point and exponent. A literal is first recognised, then
evaluated. Decimals are rounded once; digits of other radixes are accumulated in double arithmetic. A
text that is no numeral is no error, it has just no value.

An exponent is read no further than until it has reached `2 ^ 16`, which only tells when tens of thousands
of digits stand before it: below ten times that limit it is what its digits say (`exponentOf_eq`). -/
namespace ScriptCore

inductive Literal where
  | blank
  /-- At least one digit of the radix. -/
  | digits (radix : Nat) (ds : List Char)
  | infinity (negative : Bool)
  /-- Digits before and after the point, at least one in all, and a power of ten. -/
  | decimal (negative : Bool) (whole fraction : List Char) (exponent : Int)
deriving DecidableEq

namespace Literal

/-! ### Recognition -/

def radixDigits? (radix : Nat) (cs : List Char) : Option Literal :=
  if !cs.isEmpty && cs.all fun c => (Decimal.digitValue? radix c).isSome then some (digits radix cs)
  else none

/-- What follows a zero and the given letter in either case. -/
def afterMark? (mark : Char) : List Char → Option (List Char)
  | '0' :: c :: rest => if c = mark ∨ c = mark.toUpper then some rest else none
  | _ => none

/-- An optional sign and the rest. -/
def signOf : List Char → Bool × List Char
  | '+' :: rest => (false, rest)
  | '-' :: rest => (true, rest)
  | cs => (false, cs)

/-- From here on an exponent takes no more digits. -/
def exponentLimit : Nat := 2 ^ 16

/-- One digit more of an exponent, left out if the limit has been reached. -/
def exponentStep (n : Nat) (c : Char) : Nat :=
  if n < exponentLimit then Decimal.pushDigit n c else n

/-- The number that the digits of an exponent are read as. -/
def exponentOf (ds : List Char) : Nat := ds.foldl exponentStep 0

/-- The power of ten behind a decimal, `0` if nothing is there. -/
def exponent? : List Char → Option Int
  | [] => some 0
  | c :: rest =>
    if c = 'e' ∨ c = 'E' then
      let (negative, ds) := signOf rest
      if !ds.isEmpty && ds.all Char.isDigit then
        some (if negative then -(exponentOf ds) else exponentOf ds)
      else none
    else none

/-- The digits behind a point, if there is one, and the rest. -/
def fractionOf : List Char → List Char × List Char
  | '.' :: rest => rest.span Char.isDigit
  | cs => ([], cs)

/-- `Infinity` or a decimal, with an optional sign. -/
def signed? (cs : List Char) : Option Literal :=
  let (negative, body) := signOf cs
  if body = ['I', 'n', 'f', 'i', 'n', 'i', 't', 'y'] then some (infinity negative)
  else
    let (whole, rest) := body.span Char.isDigit
    let (fraction, rest) := fractionOf rest
    if whole.isEmpty && fraction.isEmpty then none
    else (exponent? rest).map fun e => decimal negative whole fraction e

/-- A literal in the notation of programs: prefixed hexadecimal, octal or binary digits, else signed. -/
def ofChars? (cs : List Char) : Option Literal :=
  if cs.isEmpty then some blank
  else if let some rest := afterMark? 'x' cs then radixDigits? 16 rest
  else if let some rest := afterMark? 'o' cs then radixDigits? 8 rest
  else if let some rest := afterMark? 'b' cs then radixDigits? 2 rest
  else signed? cs

/-- A literal read in a base from 2 to 36: program notation for 10, digits for the others, with an
optional mark for 16 and an optional mark or zero for 8. -/
def inBase? (base : Nat) (cs : List Char) : Option Literal :=
  if base = 10 then ofChars? cs
  else if cs.isEmpty then some blank
  else if base = 16 then radixDigits? 16 ((afterMark? 'x' cs).getD cs)
  else if base = 8 then
    match afterMark? 'o' cs, cs with
    | some rest, _ => radixDigits? 8 rest
    | none, '0' :: c :: rest => radixDigits? 8 (c :: rest)
    | none, cs => radixDigits? 8 cs
  else if 2 ≤ base ∧ base ≤ 36 then radixDigits? base cs
  else none

/-! ### Evaluation -/

/-- Digits taken one at a time, each step a multiplication and an addition of doubles. -/
def accumulate (radix : Nat) (ds : List Char) : Double :=
  ds.foldl
    (fun value c =>
      (value.mul (Double.ofNat radix)).add (Double.ofNat ((Decimal.digitValue? radix c).getD 0)))
    (Double.zero false)

def value : Literal → Double
  | blank => Double.zero false
  | digits radix ds => accumulate radix ds
  | infinity negative => Double.infinity negative
  | decimal negative whole fraction exponent =>
    Double.ofDecimal negative (Decimal.valueOf (whole ++ fraction)) (exponent - fraction.length)

/-! ### Exponents -/

private theorem foldl_exponentStep (ds : List Char) (n : Nat)
    (h : ds.foldl Decimal.pushDigit n < 10 * exponentLimit) :
    ds.foldl exponentStep n = ds.foldl Decimal.pushDigit n := by
  induction ds generalizing n with
  | nil => rfl
  | cons c ds ih =>
    rw [List.foldl_cons] at h
    have hle := Decimal.le_foldl_pushDigit ds (Decimal.pushDigit n c)
    have hn : n < exponentLimit := by
      unfold Decimal.pushDigit at hle h
      omega
    rw [List.foldl_cons, List.foldl_cons, exponentStep, if_pos hn]
    exact ih _ h

theorem exponentOf_eq (ds : List Char) (h : Decimal.valueOf ds < 10 * exponentLimit) :
    exponentOf ds = Decimal.valueOf ds :=
  foldl_exponentStep ds 0 h

end Literal

namespace Text

/-- The number a text denotes in a base, if it is a numeral. -/
def toDoubleInBase? (t : Text) (base : Nat) : Option Double := do
  let cs ← Numeral.ascii? (Numeral.trim t.units)
  let literal ← Literal.inBase? base cs
  return literal.value

/-- The number a text denotes in the notation of programs. -/
def toDouble? (t : Text) : Option Double := t.toDoubleInBase? 10

def isNumeric (t : Text) : Bool := t.toDouble?.isSome

end Text
end ScriptCore
