import ScriptCore.Decimal.Rational
import ScriptCore.Double.Nearest
import ScriptCore.Numeral.Exact
import ScriptCore.Proofs.FiniteTexts

/-! Numbers written with sixteen digits.

What a layout writes denotes a rational number, its digits with the point where it was put (`toRat?_written`). Where
a number is not written as a long whole number or with ten places these are its sixteen significant digits, and the
exponent of the rounded number chooses between the notations. In plain notation the number is rounded a second time,
with as many places as that exponent leaves, and the result is the same, whether the first rounding carried or not
(`atStep_generalExponent`). So the text denotes the number rounded to sixteen digits, and has no digit and no point
that it does not need (`text_sixteenDigits`). -/
namespace ScriptCore

namespace Text

theorem toRat?_eq_some {t : Text} {x : ℚ} :
    t.toRat? = some x ↔ ∃ literal cs, Numeral.Trimmed t.units (Utf16.ofString (String.ofList cs)) ∧
      Literal.Spells literal cs ∧ literal.toRat? = some x := by
  simp only [toRat?, Option.bind_eq_bind, Option.bind_eq_some_iff, Numeral.ascii?_eq_some,
    Literal.ofChars?_eq_some, Numeral.trimmed_iff, Utf16.ofString, String.toList_ofList]
  constructor
  · rintro ⟨cs, ⟨-, htrim⟩, literal, hspells, hvalue⟩
    exact ⟨literal, cs, htrim.symm, hspells, hvalue⟩
  · rintro ⟨literal, cs, htrim, hspells, hvalue⟩
    exact ⟨cs, ⟨fun c hc => hspells.lt_of_mem hc, htrim.symm⟩, literal, hspells, hvalue⟩

theorem toRat?_of_spellsSigned {literal : Literal} {cs : List Char} {x : ℚ} (hs : Literal.SpellsSigned literal cs)
    (hx : literal.toRat? = some x) : (ofString (String.ofList cs)).toRat? = some x :=
  toRat?_eq_some.mpr ⟨literal, cs, trimmed_of_spellsSigned hs, .signed hs, hx⟩

end Text

/-- Zeros that are not written do not change the number. -/
theorem Literal.toRat?_dropTrailingZeros (negative : Bool) (whole fraction : List Char) (e : Int) :
    (decimal negative whole (Decimal.dropTrailingZeros fraction) e).toRat? =
      (decimal negative whole fraction e).toRat? := by
  obtain ⟨k, hk⟩ := Decimal.exists_zeros fraction
  generalize Decimal.dropTrailingZeros fraction = kept at hk
  subst hk
  have hvalue : Decimal.valueOf (whole ++ (kept ++ List.replicate k '0')) =
      10 ^ k * Decimal.valueOf (whole ++ kept) := by
    rw [← List.append_assoc, Decimal.valueOf_append, Decimal.valueOf_replicate, List.length_replicate, Nat.add_zero]
  have hpower : (10 : ℚ) ^ (e - kept.length) = 10 ^ k * 10 ^ (e - (kept ++ List.replicate k '0').length) := by
    rw [List.length_append, List.length_replicate, ← zpow_natCast, ← zpow_add₀ (by norm_num)]
    exact congrArg _ (by omega)
  simp only [toRat?, hvalue, hpower, Nat.cast_mul, Nat.cast_pow, Nat.cast_ofNat]
  rw [mul_left_comm, ← mul_assoc]

namespace Double

/-- A layout denotes its digits, with the point where it was put. -/
theorem toRat?_written (d : Double) (places n : Nat) {suffix : List Char} {e : Int}
    (he : Literal.SpellsExponent e suffix) :
    (Text.ofString (String.ofList (d.written (Decimal.split places n) ++ suffix))).toRat? =
      some (if d.isNegative then -(n * 10 ^ (e - places)) else n * 10 ^ (e - places) : ℚ) := by
  obtain ⟨hwhole, hfraction⟩ := Literal.areDigits_split places n
  have hspelled := Literal.spells_written d hwhole (List.ne_nil_of_length_pos (Decimal.length_digits_pos _))
    hfraction he
  refine Text.toRat?_of_spellsSigned hspelled ?_
  rw [Literal.toRat?_dropTrailingZeros, Literal.toRat?, Decimal.valueOf_split, Decimal.length_split]

theorem toRat?_written_plain (d : Double) (places n : Nat) :
    (Text.ofString (String.ofList (d.written (Decimal.split places n)))).toRat? =
      some (if d.isNegative then -(n * 10 ^ (-places : ℤ)) else n * 10 ^ (-places : ℤ) : ℚ) := by
  have hread := toRat?_written d places n .absent
  rwa [List.append_nil, Int.zero_sub] at hread

/-! ### The notations of sixteen digits -/

/-- The number rounded to sixteen digits. -/
def general (d : Double) : Decimal.Scientific := Decimal.atDigits 16 d.magnitude one

theorem toRat_general (d : Double) : d.general.toRat 16 = d.general.significand * 10 ^ (d.generalExponent - 15) := rfl

/-- The second rounding finds the number that the first one found. -/
theorem atStep_generalExponent (d : Double) :
    Decimal.atStep (d.generalExponent - 15) d.magnitude one = d.general.significand :=
  Decimal.atStep_exponent (by decide : 0 < 16) d.magnitude one_pos

theorem atPlaces_generalExponent (d : Double) (hplain : d.generalExponent < 16) :
    Decimal.atPlaces (15 - d.generalExponent).toNat d.magnitude one = d.general.significand := by
  have hstep : (-((15 - d.generalExponent).toNat : Int)) = d.generalExponent - 15 := by omega
  rw [Decimal.atPlaces_eq, hstep, atStep_generalExponent]

/-- What is written with sixteen digits denotes the rounded number in either notation. -/
theorem toRat?_generalText {d : Double} (hd : d.isFinite = true) :
    (Text.ofString (String.ofList d.generalText)).toRat? =
      some (if d.isNegative then -d.general.toRat 16 else d.general.toRat 16) := by
  unfold generalText
  dsimp only
  rw [← generalExponent, ← general]
  split
  · rw [toRat?_written d 15 _ (spellsExponent_general (natAbs_generalExponent_lt hd)), toRat_general]
    rfl
  · rename_i hplain
    have hstep : (-((15 - d.generalExponent).toNat : Int)) = d.generalExponent - 15 := by omega
    rw [fixedRuns, toRat?_written_plain, atPlaces_generalExponent d (by omega), hstep, toRat_general]

end Double

namespace Decimal

/-- Digits around a point of which none is needless: no zero in front of others, and none at the end behind the
point. -/
structure IsTight (whole fraction : List Char) : Prop where
  whole_eq : ∃ n, whole = digits n
  areDigits : Literal.AreDigits 10 fraction
  last : fraction.getLast? ≠ some '0'

theorem isTight_split (places n : Nat) : IsTight (split places n).1 (dropTrailingZeros (split places n).2) where
  whole_eq := ⟨_, rfl⟩
  areDigits := Literal.areDigits_dropTrailingZeros (Literal.areDigits_split places n).2
  last := getLast?_dropTrailingZeros _

/-- A number of sixteen digits has one digit before a point in front of the others. -/
theorem length_split_scientific {n : Nat} (hlow : 10 ^ 15 ≤ n) (hhigh : n < 10 ^ 16) :
    (split 15 n).1.length = 1 := by
  have hle : (digits (n / 10 ^ 15)).length ≤ 1 := (length_digits_le_iff Nat.one_pos).mpr (by omega)
  have hpos := length_digits_pos (n / 10 ^ 15)
  exact Nat.le_antisymm hle hpos

end Decimal

namespace Double

section General
variable {d : Double} (hzero : d.isZero = false)
include hzero

theorem isRounded_iff_general {q : ℚ} : Decimal.IsRounded 16 |d.toRat| q ↔ q = d.general.toRat 16 := by
  rw [abs_toRat, general]
  exact Decimal.isRounded_iff_atDigits (magnitude_pos_iff.mpr hzero) one_pos (by decide)

theorem exponent_general :
    10 ^ d.generalExponent ≤ d.general.toRat 16 ∧ d.general.toRat 16 < 10 ^ (d.generalExponent + 1) := by
  rw [generalExponent, general]
  exact Decimal.exponent_atDigits (magnitude_pos_iff.mpr hzero) one_pos (by decide)

/-- The digits of either notation, and the exponent behind them when there is one. -/
theorem exists_generalText : ∃ whole fraction, Decimal.IsTight whole fraction ∧
    (d.generalExponent < -4 ∨ 16 ≤ d.generalExponent → whole.length = 1 ∧
      d.generalText = Decimal.signed d.isNegative (Decimal.pointed whole fraction) ++
        'e' :: (if d.generalExponent < 0 then '-' else '+') :: Decimal.digits d.generalExponent.natAbs) ∧
    (-4 ≤ d.generalExponent ∧ d.generalExponent < 16 →
      d.generalText = Decimal.signed d.isNegative (Decimal.pointed whole fraction)) := by
  unfold generalText
  dsimp only
  rw [← generalExponent, ← general]
  by_cases hform : d.generalExponent < -4 ∨ 16 ≤ d.generalExponent
  · obtain ⟨hlow, hhigh⟩ := Decimal.significand_atDigits (magnitude_pos_iff.mpr hzero) one_pos (by decide : 0 < 16)
    refine ⟨_, _, Decimal.isTight_split 15 d.general.significand, fun _ => ?_, fun hplain => by omega⟩
    rw [if_pos hform, written_split]
    exact ⟨Decimal.length_split_scientific hlow hhigh, rfl⟩
  · let places := (15 - d.generalExponent).toNat
    refine ⟨_, _, Decimal.isTight_split places (Decimal.atPlaces places d.magnitude one),
      fun hexponent => absurd hexponent hform, fun _ => ?_⟩
    rw [if_neg hform, fixedRuns, written_split]

/-- The text of a number that is not written as a long whole number or with ten places denotes the number rounded to
sixteen digits, the one such rounding, and has an exponent just when the exponent of the rounded number is below `-4`
or at least `16`. There are no needless digits in it, no point without digits behind it, and in front of an exponent
there is one digit before the point. In plain notation the places that are left round the number to the same. -/
theorem text_sixteenDigits (hd : d.isFinite = true) (hlong : d.isLongWhole = false)
    (hsmall : d.isSmallFraction = false) :
    ∃ (q : ℚ) (x : ℤ), (∀ r, Decimal.IsRounded 16 |d.toRat| r ↔ r = q) ∧ 10 ^ x ≤ q ∧ q < 10 ^ (x + 1) ∧
      (Text.ofString d.text).toRat? = some (if d.isNegative then -q else q) ∧
      (x < 16 → (Decimal.atPlaces (15 - x).toNat d.magnitude one * 10 ^ (x - 15) : ℚ) = q) ∧
      ∃ whole fraction, Decimal.IsTight whole fraction ∧
        (x < -4 ∨ 16 ≤ x → whole.length = 1 ∧
          d.text = String.ofList (Decimal.signed d.isNegative (Decimal.pointed whole fraction) ++
            'e' :: (if x < 0 then '-' else '+') :: Decimal.digits x.natAbs)) ∧
        (-4 ≤ x ∧ x < 16 →
          d.text = String.ofList (Decimal.signed d.isNegative (Decimal.pointed whole fraction))) := by
  have htext : d.text = String.ofList d.generalText := by
    simp only [text_of_isFinite hd, finiteText, hzero, hlong, hsmall, Bool.false_eq_true, if_false]
  obtain ⟨whole, fraction, htight, hexponent, hplain⟩ := exists_generalText hzero
  refine ⟨d.general.toRat 16, d.generalExponent, fun r => isRounded_iff_general hzero, (exponent_general hzero).1,
    (exponent_general hzero).2, ?_, fun hlt => ?_, whole, fraction, htight, fun hform => ?_, fun hform => ?_⟩
  · rw [htext, toRat?_generalText hd]
  · rw [atPlaces_generalExponent d hlt, toRat_general]
  · rw [htext, (hexponent hform).2]
    exact ⟨(hexponent hform).1, rfl⟩
  · rw [htext, hplain hform]

end General

/-- The double next to `1e-7` is below it, and its sixteen digits carry. -/
theorem text_sixteenDigits_carry :
    let d : Double := ⟨0x3e7ad7f29abcaf48⟩
    (d.isZero = false ∧ d.isFinite = true ∧ d.isLongWhole = false ∧ d.isSmallFraction = false) ∧
    (d.magnitude * 10 ^ 7 < one ∧ d.text = "1e-7") ∧
    ∃ (q : ℚ) (x : ℤ), (∀ r, Decimal.IsRounded 16 |d.toRat| r ↔ r = q) ∧ 10 ^ x ≤ q ∧ q < 10 ^ (x + 1) ∧
      (Text.ofString d.text).toRat? = some (if d.isNegative then -q else q) := by
  intro d
  have hvalid : d.isZero = false ∧ d.isFinite = true ∧ d.isLongWhole = false ∧ d.isSmallFraction = false := by
    decide +kernel
  obtain ⟨q, x, hrounded, hlow, hhigh, htext, -⟩ :=
    text_sixteenDigits hvalid.1 hvalid.2.1 hvalid.2.2.1 hvalid.2.2.2
  exact ⟨hvalid, by decide +kernel, q, x, hrounded, hlow, hhigh, htext⟩

end Double
end ScriptCore
