import Mathlib.Algebra.Order.Field.Rat
import Mathlib.Data.Nat.Digits.Lemmas
import ScriptCore.Numeral.Literal

/-! What numerals denote exactly.

The value of a literal is the double it is read as (`Literal.value`). Apart from that it denotes a number, which
is rational unless it is infinite, and nothing is rounded to find it. -/
namespace ScriptCore

namespace Literal

/-! ### Integers -/

/-- The integer that digits denote, the first digit being the most significant one. -/
def integerOf (radix : Nat) (ds : List Char) : Nat :=
  Nat.ofDigits radix (ds.reverse.map fun c => (Decimal.digitValue? radix c).getD 0)

section Integer
variable {radix : Nat}

theorem integerOf_append (front back : List Char) :
    integerOf radix (front ++ back) = integerOf radix front * radix ^ back.length + integerOf radix back := by
  rw [integerOf, List.reverse_append, List.map_append, Nat.ofDigits_append, List.length_map, List.length_reverse,
    Nat.add_comm, Nat.mul_comm, integerOf, integerOf]

theorem integerOf_nil : integerOf radix [] = 0 := rfl

theorem integerOf_singleton (c : Char) : integerOf radix [c] = (Decimal.digitValue? radix c).getD 0 :=
  Nat.ofDigits_singleton

theorem getD_digitValue?_lt (hradix : 0 < radix) (c : Char) : (Decimal.digitValue? radix c).getD 0 < radix := by
  cases hc : Decimal.digitValue? radix c with
  | none => exact hradix
  | some value =>
    obtain ⟨hlt, rfl⟩ := Option.ite_none_right_eq_some.mp hc |>.imp_right Option.some.inj
    exact hlt

theorem integerOf_lt (hradix : 1 < radix) (ds : List Char) : integerOf radix ds < radix ^ ds.length := by
  have hlt := Nat.ofDigits_lt_base_pow_length (b := radix)
    (l := ds.reverse.map fun c => (Decimal.digitValue? radix c).getD 0) hradix
  rw [List.length_map, List.length_reverse] at hlt
  refine hlt fun n hn => ?_
  obtain ⟨c, -, rfl⟩ := List.mem_map.mp hn
  exact getD_digitValue?_lt (Nat.lt_trans Nat.one_pos hradix) c

theorem integerOf_dropLast_le (hradix : 0 < radix) (ds : List Char) :
    integerOf radix ds.dropLast ≤ integerOf radix ds := by
  cases ds using List.reverseRecOn with
  | nil => exact Nat.le_refl _
  | append_singleton front c =>
    rw [List.dropLast_concat, integerOf_append]
    exact Nat.le_add_right_of_le (Nat.le_mul_of_pos_right _ (Nat.pow_pos hradix))

end Integer

/-! ### Rational numbers -/

/-- The number that a literal denotes, none if it is infinite. -/
def toRat? : Literal → Option ℚ
  | blank => some 0
  | digits radix ds => some (integerOf radix ds)
  | infinity _ => none
  | decimal negative whole fraction exponent =>
    let magnitude : ℚ := Decimal.valueOf (whole ++ fraction) * 10 ^ (exponent - fraction.length)
    some (if negative then -magnitude else magnitude)

end Literal

/-- The number that a text denotes in the notation of programs, if it is a numeral and finite. -/
def Text.toRat? (t : Text) : Option ℚ := do
  let cs ← Numeral.ascii? (Numeral.trim t.units)
  let literal ← Literal.ofChars? cs
  literal.toRat?

end ScriptCore
