import ScriptCore.Text

/-! White space around numerals: the white space and line terminators of ECMAScript, as code units. -/
namespace ScriptCore.Numeral

/-- Tab to carriage return, the spaces of Unicode, the two separators and the byte order mark. -/
def isBlank (u : UInt16) : Bool :=
  let n := u.toNat
  (0x9 ≤ n && n ≤ 0xd) || n == 0x20 || n == 0xa0 || n == 0x1680 || (0x2000 ≤ n && n ≤ 0x200a) ||
    n == 0x2028 || n == 0x2029 || n == 0x202f || n == 0x205f || n == 0x3000 || n == 0xfeff

/-- The units without blanks at either end. -/
def trim (units : List UInt16) : List UInt16 :=
  (((units.dropWhile isBlank).reverse).dropWhile isBlank).reverse

/-- The units as characters, if all are ASCII. -/
def ascii? (units : List UInt16) : Option (List Char) :=
  units.mapM fun u => if u < 0x80 then some (Char.ofNat u.toNat) else none

end ScriptCore.Numeral
