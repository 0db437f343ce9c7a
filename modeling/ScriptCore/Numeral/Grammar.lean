import ScriptCore.Numeral.Literal

/-! The grammar of numerals.

Which characters spell which literal, said without reading them: a literal has several spellings, each
spelling one literal. `Trimmed` says in the same way what is left of a text without the blanks around it. -/
namespace ScriptCore

namespace Numeral

/-- The units with blanks on either side, none of them blank at an end. -/
structure Trimmed (units rest : List UInt16) : Prop where
  surrounded : ∃ before after, units = before ++ rest ++ after ∧ (∀ u ∈ before, isBlank u = true) ∧
    ∀ u ∈ after, isBlank u = true
  first : ∀ u, rest.head? = some u → isBlank u = false
  last : ∀ u, rest.getLast? = some u → isBlank u = false

end Numeral

namespace Literal

/-- The digits of the radixes that literals are written in. -/
def digitsOf : Nat → List Char
  | 2 => ['0', '1']
  | 8 => ['0', '1', '2', '3', '4', '5', '6', '7']
  | 10 => ['0', '1', '2', '3', '4', '5', '6', '7', '8', '9']
  | 16 => ['0', '1', '2', '3', '4', '5', '6', '7', '8', '9', 'a', 'b', 'c', 'd', 'e', 'f', 'A', 'B', 'C',
      'D', 'E', 'F']
  | _ => []

/-- A run of digits, which may be empty. -/
def AreDigits (radix : Nat) (ds : List Char) : Prop := ∀ c ∈ ds, c ∈ digitsOf radix

instance (radix : Nat) (ds : List Char) : Decidable (AreDigits radix ds) :=
  List.decidableBAll (· ∈ digitsOf radix) ds

/-- At most one sign. Only a minus makes a literal negative. -/
inductive SpellsSign : Bool → List Char → Prop where
  | absent : SpellsSign false []
  | plus : SpellsSign false ['+']
  | minus : SpellsSign true ['-']

/-- A point may stand without digits behind it. -/
inductive SpellsFraction : List Char → List Char → Prop where
  | absent : SpellsFraction [] []
  | point {ds : List Char} : AreDigits 10 ds → SpellsFraction ds ('.' :: ds)

inductive SpellsExponent : Int → List Char → Prop where
  | absent : SpellsExponent 0 []
  | present {mark : Char} {negative : Bool} {sign ds : List Char} : mark ∈ ['e', 'E'] →
      SpellsSign negative sign → ds ≠ [] → AreDigits 10 ds →
      SpellsExponent (if negative then -(exponentOf ds) else exponentOf ds) (mark :: (sign ++ ds))

/-- A decimal has a digit before the point or behind it. -/
inductive SpellsSigned : Literal → List Char → Prop where
  | infinity {negative : Bool} {sign : List Char} : SpellsSign negative sign →
      SpellsSigned (infinity negative) (sign ++ ['I', 'n', 'f', 'i', 'n', 'i', 't', 'y'])
  | decimal {negative : Bool} {sign whole fraction point exponent : List Char} {e : Int} :
      SpellsSign negative sign → AreDigits 10 whole → SpellsFraction fraction point →
      whole ++ fraction ≠ [] → SpellsExponent e exponent →
      SpellsSigned (decimal negative whole fraction e) (sign ++ (whole ++ (point ++ exponent)))

/-- The letters that mark a radix other than ten. -/
def marks : List (Char × Nat) := [('x', 16), ('X', 16), ('o', 8), ('O', 8), ('b', 2), ('B', 2)]

/-- Digits behind a mark take no sign. -/
inductive Spells : Literal → List Char → Prop where
  | blank : Spells blank []
  | marked {mark : Char} {radix : Nat} {ds : List Char} : (mark, radix) ∈ marks → ds ≠ [] →
      AreDigits radix ds → Spells (digits radix ds) ('0' :: mark :: ds)
  | signed {literal : Literal} {cs : List Char} : SpellsSigned literal cs → Spells literal cs

end Literal
end ScriptCore
