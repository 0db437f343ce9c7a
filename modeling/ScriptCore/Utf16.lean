import ScriptCore.Power

/-! UTF-16 code units.

A character takes one unit or, beyond `U+FFFF`, a pair of surrogates. Any sequence of units is allowed in
a text; reading it as characters meets surrogates that stand alone, which have no character. -/
namespace ScriptCore.Utf16

/-- The units of one character. -/
def ofChar (c : Char) : List UInt16 :=
  if c.toNat < 0x10000 then [UInt16.ofNat c.toNat]
  else
    let n := c.toNat - 0x10000
    [UInt16.ofNat (0xd800 + n / 0x400), UInt16.ofNat (0xdc00 + n % 0x400)]

def ofString (s : String) : List UInt16 := s.toList.flatMap ofChar

def isLeading (u : UInt16) : Bool := 0xd800 ≤ u.toNat && u.toNat < 0xdc00
def isTrailing (u : UInt16) : Bool := 0xdc00 ≤ u.toNat && u.toNat < 0xe000

/-- The character of a unit, or nothing for a surrogate. -/
def single? (u : UInt16) : Option Char :=
  if isLeading u || isTrailing u then none else some (Char.ofNat u.toNat)

/-- The character of a surrogate pair. -/
def paired (u v : UInt16) : Char :=
  Char.ofNat (0x10000 + (u.toNat - 0xd800) * 0x400 + (v.toNat - 0xdc00))

/-- The characters of a sequence, with nothing in the place of each lone surrogate. -/
def chars : List UInt16 → List (Option Char)
  | [] => []
  | [u] => [single? u]
  | u :: v :: rest =>
    if isLeading u && isTrailing v then some (paired u v) :: chars rest
    else single? u :: chars (v :: rest)

/-- The string, if no surrogate stands alone. -/
def toString? (units : List UInt16) : Option String := ((chars units).mapM (·)).map String.ofList

/-- The string with `U+FFFD` for each lone surrogate. -/
def toStringLossy (units : List UInt16) : String :=
  String.ofList ((chars units).map fun c => c.getD (Char.ofNat 0xfffd))

end ScriptCore.Utf16
