import Mathlib.Data.Nat.Cast.Order.Field
import ScriptCore.Decimal.Rational
import ScriptCore.Double.Spacing

/-! Nearest doubles.

A finite double is a rational number (`toRat`). The double nearest to a number is the one that no finite double is
nearer than, and its last bit is zero if another one is as near (`IsNearest`). There is one such double, but for the
sign of a zero (`IsNearest.unique`), and rounding finds it (`isNearest_ofRatio`). Magnitudes that are no multiples of
the step at a fraction lie below the multiples around it, so it is enough that the nearest multiple is taken
(`exists_multiple_near`). Products and quotients of finite doubles are rounded once, so they are the doubles nearest
to the products and quotients of the numbers (`isNearest_mul`, `isNearest_div`). -/
namespace ScriptCore.Double

/-! ### Doubles as numbers -/

/-- The number that a finite double is. -/
def toRat (d : Double) : ℚ := d.units / one

theorem abs_toRat (d : Double) : |d.toRat| = d.magnitude / one := by
  rw [toRat, abs_div, Nat.abs_cast, ← natAbs_units, Nat.cast_natAbs, Int.cast_abs]

theorem natCast_one_pos : (0 : ℚ) < one := by exact_mod_cast one_pos

theorem toRat_lt_iff {a b : Double} : a.toRat < b.toRat ↔ a.key < b.key := by
  rw [toRat, toRat, div_lt_div_iff_of_pos_right natCast_one_pos, key_lt_iff, Int.cast_lt]

theorem toRat_eq_iff {a b : Double} : a.toRat = b.toRat ↔ a.key = b.key := by
  rw [toRat, toRat, div_left_inj' natCast_one_pos.ne', key_eq_iff, Int.cast_inj]

theorem toRat_of_units {d : Double} {k : ℤ} (hunits : d.units = k * one) : d.toRat = k := by
  rw [toRat, hunits, Int.cast_mul, Int.cast_natCast, mul_div_cancel_right₀ _ natCast_one_pos.ne']

theorem units_of_toRat {d : Double} {k : ℤ} (hk : d.toRat = k) : d.units = k * one := by
  rw [toRat, div_eq_iff natCast_one_pos.ne'] at hk
  exact_mod_cast hk

/-- A number behind a sign, which a zero has as well. -/
def signed (negative : Bool) (x : ℚ) : ℚ := if negative then -x else x

theorem toRat_eq_signed (d : Double) : d.toRat = signed d.isNegative (unitsOf d.pattern / one) := by
  rw [toRat, units, magnitude, signed]
  split
  · rw [Int.cast_neg, Int.cast_natCast, neg_div]
  · rw [Int.cast_natCast]

section Signs
variable (m n : Bool) (x y : ℚ)

theorem signed_mul : signed m x * signed n y = signed (m != n) (x * y) := by
  cases m <;> cases n <;> simp [signed]

theorem signed_div : signed m x / signed n y = signed (m != n) (x / y) := by
  cases m <;> cases n <;> simp [signed, neg_div, div_neg]

theorem signed_of_ne (hne : m ≠ n) : signed m x = signed n (-x) := by
  cases m <;> cases n <;> simp_all [signed]

theorem abs_signed_sub : |signed n x - signed n y| = |x - y| := by
  cases n with
  | false => rfl
  | true =>
    show |-x - -y| = |x - y|
    rw [neg_sub_neg, abs_sub_comm]

end Signs

/-- The double is finite and nearest to the number. No finite double is nearer, and if one that is another number is
as near, the last bit of this one is zero. -/
structure IsNearest (x : ℚ) (d : Double) : Prop where
  isFinite : d.isFinite = true
  near : ∀ e : Double, e.isFinite = true → |x - d.toRat| ≤ |x - e.toRat|
  even : ∀ e : Double, e.isFinite = true → e.toRat ≠ d.toRat → |x - e.toRat| = |x - d.toRat| → d.pattern % 2 = 0

/-! ### One nearest double -/

/-- Between two numbers whose last bits are zero there is a double. -/
theorem exists_between {a b : Double} (ha : a.isFinite = true) (hb : b.isFinite = true) (hlt : a.key < b.key)
    (haeven : a.pattern % 2 = 0) (hbeven : b.pattern % 2 = 0) :
    ∃ c : Double, c.isFinite = true ∧ a.key < c.key ∧ c.key < b.key := by
  have hkey : ∀ d : Double, d.key = d.pattern ∨ d.key = -d.pattern := fun d => by
    unfold key
    split
    · exact .inr rfl
    · exact .inl rfl
  have hakey := hkey a
  have hbkey := hkey b
  have hapattern := of_decide_eq_true ha
  have hbpattern := of_decide_eq_true hb
  have hfinite : (a.key + 1).natAbs < infinityPattern := by omega
  have hsmall := lt_of_le_infinityPattern hfinite.le
  refine ⟨ofPattern (a.key + 1 < 0) (a.key + 1).natAbs, isFinite_ofPattern _ hfinite, ?_⟩
  have hnext : (ofPattern (a.key + 1 < 0) (a.key + 1).natAbs).key = a.key + 1 := by
    rw [key, pattern_ofPattern _ _ hsmall, isNegative_ofPattern _ _ hsmall]
    simp only [decide_eq_true_eq]
    split <;> omega
  omega

namespace IsNearest

variable {x : ℚ} {a b : Double}

theorem toRat_eq (ha : IsNearest x a) (hb : IsNearest x b) : a.toRat = b.toRat := by
  have hsame : |x - b.toRat| = |x - a.toRat| := le_antisymm (hb.near a ha.isFinite) (ha.near b hb.isFinite)
  by_contra hne
  have haeven := ha.even b hb.isFinite (Ne.symm hne) hsame
  have hbeven := hb.even a ha.isFinite hne hsame.symm
  wlog hlt : a.toRat < b.toRat generalizing a b
  · exact this hb ha hsame.symm (Ne.symm hne) hbeven haeven (lt_of_le_of_ne (not_lt.mp hlt) (Ne.symm hne))
  obtain ⟨c, hc, hac, hcb⟩ := exists_between ha.isFinite hb.isFinite (toRat_lt_iff.mp hlt) haeven hbeven
  rw [← toRat_lt_iff] at hac hcb
  -- The number is in the middle of the two, and what lies between them is nearer.
  have hmiddle : x - a.toRat = b.toRat - x := by
    rcases abs_eq_abs.mp hsame with heq | heq
    · exact absurd (by linarith) hne
    · linarith
  have hnear := ha.near c hc
  rw [abs_of_pos (by linarith : 0 < x - a.toRat)] at hnear
  exact absurd hnear (not_le.mpr (abs_lt.mpr ⟨by linarith, by linarith⟩))

/-- A number has one nearest double, unless that is a zero. -/
theorem unique (ha : IsNearest x a) (hb : IsNearest x b) (hzero : a.isZero = false) : a = b := by
  have hkey := toRat_eq_iff.mp (ha.toRat_eq hb)
  by_cases hsign : a.isNegative = b.isNegative
  · exact eq_of_key_eq hkey hsign
  · rw [(isZero_of_key_eq hkey hsign).1] at hzero
    cases hzero

end IsNearest

/-! ### Nearest magnitudes -/

/-- No magnitude is nearer to a fraction than all multiples of the step there. -/
theorem exists_multiple_near (num den q : ℕ) : ∃ m : ℕ, m * 2 ^ ((num / den).log2 - 52) = unitsOf q ∨
    |(num / den : ℚ) - (m * 2 ^ ((num / den).log2 - 52) : ℕ)| < |(num / den : ℚ) - unitsOf q| := by
  by_cases hdvd : 2 ^ ((num / den).log2 - 52) ∣ unitsOf q
  · obtain ⟨m, hm⟩ := hdvd
    exact ⟨m, .inl (by rw [hm, Nat.mul_comm])⟩
  · -- Between the magnitude and the fraction lies the least multiple that has the leading bit.
    refine ⟨2 ^ 52, .inr ?_⟩
    have hbelow : unitsOf q < 2 ^ 52 * 2 ^ ((num / den).log2 - 52) :=
      Nat.lt_of_not_le fun hle => hdvd (two_pow_dvd_unitsOf hle)
    have hshift : 52 < (num / den).log2 := by
      refine Nat.lt_of_not_le fun hle => hdvd ?_
      rw [Nat.sub_eq_zero_of_le hle, Nat.pow_zero]
      exact Nat.one_dvd _
    have hlead : 2 ^ 52 * 2 ^ ((num / den).log2 - 52) ≤ num / den := by
      rw [← Nat.pow_add, Nat.add_sub_cancel' hshift.le]
      exact Nat.log2_self_le fun hzero => by rw [hzero, Nat.log2_zero] at hshift; omega
    generalize 2 ^ 52 * 2 ^ ((num / den).log2 - 52) = lead at hbelow hlead
    have hlow : (unitsOf q : ℚ) < lead := by exact_mod_cast hbelow
    have hhigh : (lead : ℚ) ≤ num / den :=
      (by exact_mod_cast hlead : (lead : ℚ) ≤ (num / den : ℕ)).trans Nat.cast_div_le
    rw [abs_of_nonneg (by linarith), abs_of_nonneg (by linarith)]
    linarith

section Rounded
variable {num den : ℕ} (hden : 0 < den) (hfinite : roundUnits num den < infinityPattern)
include hden hfinite

/-- The rounded magnitude is as near as any other, and its last bit is zero if another one is as near. -/
theorem near_roundUnits (q : ℕ) :
    |(num / den : ℚ) - unitsOf (roundUnits num den)| ≤ |(num / den : ℚ) - unitsOf q| ∧
      (unitsOf q ≠ unitsOf (roundUnits num den) →
        |(num / den : ℚ) - unitsOf q| = |(num / den : ℚ) - unitsOf (roundUnits num den)| →
          roundUnits num den % 2 = 0) := by
  have hpattern := roundUnits_of_lt hfinite
  have hunits := unitsOf_unbounded num hden
  rw [← hpattern] at hunits
  obtain ⟨m, hm⟩ := exists_multiple_near num den q
  have hstep := Nat.two_pow_pos ((num / den).log2 - 52)
  have hnearest := isNearestEven_roundHalfEven num (Nat.mul_pos hden hstep)
  have hparity : roundHalfEven num (den * 2 ^ ((num / den).log2 - 52)) % 2 = 0 → roundUnits num den % 2 = 0 := by
    omega
  rw [hunits]
  clear hunits hpattern
  generalize roundHalfEven num (den * 2 ^ ((num / den).log2 - 52)) = n at *
  generalize 2 ^ ((num / den).log2 - 52) = step at *
  have hpos : (0 : ℚ) < step := by exact_mod_cast hstep
  have hscale : ∀ k : ℕ, |(num / den : ℚ) - (k * step : ℕ)| = |(num / (den * step : ℕ) : ℚ) - k| * step := fun k =>
    calc |(num / den : ℚ) - (k * step : ℕ)|
      _ = |((num / (den * step : ℕ) : ℚ) - k) * step| := by
        rw [sub_mul, Nat.cast_mul, Nat.cast_mul, ← div_div, div_mul_cancel₀ _ hpos.ne']
      _ = |(num / (den * step : ℕ) : ℚ) - k| * step := by rw [abs_mul, abs_of_pos hpos]
  have hle : |(num / den : ℚ) - (n * step : ℕ)| ≤ |(num / den : ℚ) - (m * step : ℕ)| := by
    rw [hscale, hscale]
    exact mul_le_mul_of_nonneg_right (hnearest.abs_sub_le m) hpos.le
  rcases hm with hmultiple | hfarther
  · rw [← hmultiple]
    refine ⟨hle, fun hne heq => hparity (hnearest.even_of_abs_sub_eq (m := m) (fun hsame => hne (by rw [hsame])) ?_)⟩
    rw [hscale, hscale] at heq
    exact mul_right_cancel₀ hpos.ne' heq
  · exact ⟨hle.trans hfarther.le, fun _ heq => absurd heq (hle.trans_lt hfarther).ne'⟩

end Rounded

/-! ### Nearest doubles -/

/-- Some magnitude is as near to a number without its sign as a double is to the number. -/
theorem exists_magnitude_near (negative : Bool) {x : ℚ} (hx : 0 ≤ x) (e : Double) :
    ∃ q, |x - unitsOf q / one| ≤ |signed negative x - e.toRat| ∧
      (|x - unitsOf q / one| = |signed negative x - e.toRat| → e.toRat = signed negative (unitsOf q / one)) := by
  rw [toRat_eq_signed]
  by_cases hsign : e.isNegative = negative
  · refine ⟨e.pattern, ?_, fun _ => by rw [hsign]⟩
    rw [hsign, abs_signed_sub]
  · -- A double on the other side of zero is not nearer than zero.
    have hmagnitude : (0 : ℚ) ≤ unitsOf e.pattern / one := div_nonneg (Nat.cast_nonneg _) (Nat.cast_nonneg _)
    have hapart : |signed negative x - signed e.isNegative (unitsOf e.pattern / one)| =
        x + unitsOf e.pattern / one := by
      rw [signed_of_ne _ _ _ hsign, abs_signed_sub, sub_neg_eq_add, abs_of_nonneg (add_nonneg hx hmagnitude)]
    have hzero : |x - unitsOf 0 / one| = x := by
      rw [show unitsOf 0 = 0 from rfl, Nat.cast_zero, zero_div, sub_zero, abs_of_nonneg hx]
    rw [hapart]
    refine ⟨0, hzero.trans_le (le_add_of_nonneg_right hmagnitude), fun heq => ?_⟩
    rw [hzero, left_eq_add] at heq
    rw [heq, signed_of_ne _ _ _ hsign, neg_zero, show unitsOf 0 = 0 from rfl, Nat.cast_zero, zero_div]

/-- Rounding finds the nearest double, unless the range ends. -/
theorem isNearest_ofRatio (negative : Bool) {num den : ℕ} (hden : 0 < den)
    (hfinite : roundUnits num den < infinityPattern) :
    IsNearest (signed negative (num / den / one)) (ofRatio negative num den) := by
  have hx : (0 : ℚ) ≤ num / den / one := div_nonneg (div_nonneg num.cast_nonneg den.cast_nonneg) one.cast_nonneg
  have hscale : ∀ u : ℕ, |(num / den / one : ℚ) - u / one| = |(num / den : ℚ) - u| / one := fun u => by
    rw [← sub_div, abs_div, Nat.abs_cast]
  have hnear : ∀ q, |(num / den / one : ℚ) - unitsOf (roundUnits num den) / one| ≤
      |(num / den / one : ℚ) - unitsOf q / one| := fun q => by
    rw [hscale, hscale]
    exact div_le_div_of_nonneg_right (near_roundUnits hden hfinite q).1 natCast_one_pos.le
  have hdistance : |signed negative (num / den / one) - (ofRatio negative num den).toRat| =
      |(num / den / one : ℚ) - unitsOf (roundUnits num den) / one| := by
    rw [toRat_eq_signed, isNegative_ofRatio, pattern_ofRatio, abs_signed_sub]
  refine ⟨?_, fun e _ => ?_, fun e _ hne heq => ?_⟩
  · rw [isFinite, pattern_ofRatio]
    exact decide_eq_true hfinite
  · obtain ⟨q, hle, -⟩ := exists_magnitude_near negative hx e
    rw [hdistance]
    exact (hnear q).trans hle
  · obtain ⟨q, hle, hsame⟩ := exists_magnitude_near negative hx e
    rw [hdistance] at heq
    have hq := le_antisymm (hle.trans heq.le) (hnear q)
    rw [pattern_ofRatio]
    refine (near_roundUnits hden hfinite q).2 (fun hunits => hne ?_) ?_
    · rw [hsame (hq.trans heq.symm), hunits, toRat_eq_signed, isNegative_ofRatio, pattern_ofRatio]
    · rw [hscale, hscale] at hq
      exact (div_left_inj' natCast_one_pos.ne').mp hq

/-! ### Products and quotients -/

section Finite
variable {a b : Double} (ha : a.isFinite = true) (hb : b.isFinite = true)
include ha hb

/-- A product is the double nearest to the product of the numbers. -/
theorem isNearest_mul (hfinite : (a.mul b).isFinite = true) : IsNearest (a.toRat * b.toRat) (a.mul b) := by
  rw [mul_of_isFinite ha hb, isFinite, pattern_ofRatio] at hfinite
  have hproduct := isNearest_ofRatio (a.isNegative != b.isNegative) one_pos (of_decide_eq_true hfinite)
  rw [← mul_of_isFinite ha hb] at hproduct
  rw [toRat_eq_signed, toRat_eq_signed, signed_mul]
  rwa [Nat.cast_mul, mul_div_right_comm, mul_div_assoc, magnitude, magnitude] at hproduct

/-- A quotient is the double nearest to the quotient of the numbers. -/
theorem isNearest_div (hzero : b.isZero = false) (hfinite : (a.div b).isFinite = true) :
    IsNearest (a.toRat / b.toRat) (a.div b) := by
  rw [div_of_isFinite ha hb hzero, isFinite, pattern_ofRatio] at hfinite
  have hquotient := isNearest_ofRatio (a.isNegative != b.isNegative) (magnitude_pos_iff.mpr hzero)
    (of_decide_eq_true hfinite)
  rw [← div_of_isFinite ha hb hzero] at hquotient
  rw [toRat_eq_signed, toRat_eq_signed, signed_div, div_div_div_cancel_right₀ natCast_one_pos.ne']
  rwa [Nat.cast_mul, div_right_comm, mul_div_cancel_right₀ _ natCast_one_pos.ne', magnitude, magnitude] at hquotient

end Finite
end ScriptCore.Double
