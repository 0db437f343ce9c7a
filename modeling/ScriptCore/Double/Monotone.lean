import ScriptCore.Decimal.Nearest
import ScriptCore.Double.Integers

/-! Rounding and order.

A greater number is never rounded to a smaller double (`roundUnits_mono`), so a bound on a number is a bound
on its double, and equal fractions have one double (`roundUnits_congr`). For decimals this means that the
answers given without computing the power are what rounding gives (`ofDecimal_eq`), and that zeros at the
end of the digits do not count (`ofDecimal_scale`). -/
namespace ScriptCore.Double

/-! ### Rounded numbers -/

theorem roundUnits_le (num den : Nat) : roundUnits num den ≤ infinityPattern := Nat.min_le_left _ _

section Rounded
variable (negative : Bool) (num den : Nat)

theorem pattern_ofRatio : (ofRatio negative num den).pattern = roundUnits num den :=
  pattern_ofPattern _ _ (lt_of_le_infinityPattern (roundUnits_le num den))

theorem isNegative_ofRatio : (ofRatio negative num den).isNegative = negative :=
  isNegative_ofPattern _ _ (lt_of_le_infinityPattern (roundUnits_le num den))

theorem isNaN_ofRatio : (ofRatio negative num den).isNaN = false := by
  rw [isNaN, pattern_ofRatio]
  exact decide_eq_false (Nat.not_lt.mpr (roundUnits_le num den))

end Rounded

/-! ### Order -/

/-- The leading bits of a quotient, rounded, have one bit more at most. -/
theorem roundHalfEven_shift_le (num : Nat) {den : Nat} (hden : 0 < den) :
    roundHalfEven num (den * 2 ^ ((num / den).log2 - 52)) ≤ 2 ^ 53 := by
  refine roundHalfEven_le (Nat.mul_pos hden (Nat.two_pow_pos _)) ?_
  have hquotient : num / den < 2 ^ 53 * 2 ^ ((num / den).log2 - 52) := by
    rw [← Nat.pow_add]
    exact Nat.lt_of_lt_of_le Nat.lt_log2_self (Nat.pow_le_pow_right (by decide) (by omega))
  rw [Nat.mul_left_comm, Nat.mul_comm]
  exact Nat.le_of_lt ((Nat.div_lt_iff_lt_mul hden).mp hquotient)

/-- Above the subnormals they have their leading bit. -/
theorem le_roundHalfEven_shift {num den : Nat} (hden : 0 < den) (hshift : 52 < (num / den).log2) :
    2 ^ 52 ≤ roundHalfEven num (den * 2 ^ ((num / den).log2 - 52)) := by
  refine le_roundHalfEven (Nat.mul_pos hden (Nat.two_pow_pos _)) ?_
  have hne : num / den ≠ 0 := fun hzero => by
    rw [hzero, Nat.log2_zero] at hshift
    omega
  have hpow : 2 ^ 52 * 2 ^ ((num / den).log2 - 52) = 2 ^ (num / den).log2 := by
    rw [← Nat.pow_add, Nat.add_sub_cancel' (by omega)]
  rw [Nat.mul_left_comm, hpow, Nat.mul_comm]
  exact (Nat.le_div_iff_mul_le hden).mp (Nat.log2_self_le hne)

theorem log2_mono {m n : Nat} (h : m ≤ n) : m.log2 ≤ n.log2 := by
  by_cases hm : m = 0
  · simp [hm]
  · exact (Nat.le_log2 (by omega)).mpr (Nat.le_trans (Nat.log2_self_le hm) h)

/-- A carry out of the leading bits does not reach beyond the next exponent. -/
theorem shifted_le {s t small large : Nat} (h : s < t) (hsmall : small ≤ 2 ^ 53) (hlarge : 2 ^ 52 ≤ large) :
    s * 2 ^ 52 + small ≤ t * 2 ^ 52 + large := by
  have hstep : (s + 1) * 2 ^ 52 ≤ t * 2 ^ 52 := Nat.mul_le_mul_right _ h
  omega

theorem roundUnits_mono_left {m n : Nat} (h : m ≤ n) {den : Nat} (hden : 0 < den) :
    roundUnits m den ≤ roundUnits n den := by
  have hlog : (m / den).log2 ≤ (n / den).log2 := log2_mono (Nat.div_le_div_right h)
  refine Nat.le_min.mpr ⟨Nat.min_le_left _ _, Nat.le_trans (Nat.min_le_right _ _) ?_⟩
  show ((m / den).log2 - 52) * 2 ^ 52 + roundHalfEven m (den * 2 ^ ((m / den).log2 - 52)) ≤
    ((n / den).log2 - 52) * 2 ^ 52 + roundHalfEven n (den * 2 ^ ((n / den).log2 - 52))
  rcases Nat.lt_or_eq_of_le (Nat.sub_le_sub_right hlog 52) with hless | hsame
  · have hshift : 52 < (n / den).log2 := by omega
    exact shifted_le hless (roundHalfEven_shift_le m hden) (le_roundHalfEven_shift hden hshift)
  · rw [← hsame]
    exact Nat.add_le_add_left (roundHalfEven_mono h _) _

theorem roundUnits_mono {num den num' den' : Nat} (hden : 0 < den) (hden' : 0 < den')
    (h : num * den' ≤ num' * den) : roundUnits num den ≤ roundUnits num' den' := by
  rw [← roundUnits_scale num den hden', ← roundUnits_scale num' den' hden, Nat.mul_comm den' den]
  exact roundUnits_mono_left h (Nat.mul_pos hden hden')

/-- Equal fractions have one double. -/
theorem roundUnits_congr {num den num' den' : Nat} (hden : 0 < den) (hden' : 0 < den')
    (h : num * den' = num' * den) : roundUnits num den = roundUnits num' den' :=
  Nat.le_antisymm (roundUnits_mono hden hden' (Nat.le_of_eq h))
    (roundUnits_mono hden' hden (Nat.le_of_eq h.symm))

/-! ### Decimals -/

theorem roundUnits_zero (den : Nat) : roundUnits 0 den = 0 := by
  simp [roundUnits, roundHalfEven]

/-- What is half a unit at most is rounded to zero. -/
theorem roundUnits_of_le_half {num den : Nat} (hden : 0 < den) (h : 2 * num ≤ den) : roundUnits num den = 0 := by
  have hhalf : roundUnits 1 2 = 0 := by decide
  have hle := roundUnits_mono hden (by decide : 0 < 2) (by omega : num * 2 ≤ 1 * den)
  omega

theorem roundUnits_powerOfTen : roundUnits (10 ^ 310 * one) 1 = infinityPattern := by decide +kernel

theorem le_digits_mul {digits k e : Nat} (hdigits : 0 < digits) (h : k ≤ e) : 10 ^ k ≤ digits * 10 ^ e :=
  Nat.le_trans (Nat.pow_le_pow_right (by decide) h) (Nat.le_mul_of_pos_left _ hdigits)

/-- From `10 ^ 310` on everything is infinite. -/
theorem ofRatio_of_le (negative : Bool) {digits e : Nat} (hdigits : 0 < digits) (he : 310 ≤ e) :
    ofRatio negative (digits * 10 ^ e * one) 1 = infinity negative := by
  have hle := roundUnits_mono_left (Nat.mul_le_mul_right one (le_digits_mul hdigits he)) Nat.one_pos
  rw [roundUnits_powerOfTen] at hle
  rw [ofRatio, Nat.le_antisymm (roundUnits_le _ _) hle, infinity]

theorem two_pow_mul_one (k : Nat) : 2 ^ k * one = 2 ^ (k + 1074) := by
  rw [one, Nat.pow_add]

/-- Below half a unit everything is zero. -/
theorem ofRatio_of_log2_le (negative : Bool) {digits e : Nat} (he : digits.log2 + 1076 ≤ 3 * e) :
    ofRatio negative (digits * one) (10 ^ e) = zero negative := by
  have hsmall : 2 * (digits * one) ≤ 10 ^ e :=
    calc 2 * (digits * one)
      _ ≤ 2 * (2 ^ (digits.log2 + 1) * one) :=
        Nat.mul_le_mul_left _ (Nat.mul_le_mul_right _ (Nat.le_of_lt Nat.lt_log2_self))
      _ = 2 ^ (digits.log2 + 1076) := by rw [two_pow_mul_one, ← Nat.pow_add_one']
      _ ≤ 2 ^ (3 * e) := Nat.pow_le_pow_right (by decide) he
      _ = 8 ^ e := Nat.pow_mul 2 3 e
      _ ≤ 10 ^ e := Nat.pow_le_pow_left (by decide) e
  rw [ofRatio, roundUnits_of_le_half (Nat.pow_pos (by decide)) hsmall, zero]

/-- A decimal is rounded once, whatever its exponent. -/
theorem ofDecimal_eq (negative : Bool) (digits : Nat) (e : Int) :
    ofDecimal negative digits e = ofRatio negative (digits * 10 ^ e.toNat * one) (10 ^ (-e).toNat) := by
  unfold ofDecimal
  split
  · rename_i hzero
    rw [hzero, Nat.zero_mul, Nat.zero_mul, ofRatio, roundUnits_zero, zero]
  · rename_i hdigits
    cases e with
    | ofNat e =>
      show (if 310 ≤ e then infinity negative else ofRatio negative (digits * 10 ^ e * one) 1) = _
      rw [show (Int.ofNat e).toNat = e from rfl, show (-Int.ofNat e).toNat = 0 by simp, Nat.pow_zero]
      split
      · exact (ofRatio_of_le negative (Nat.pos_of_ne_zero hdigits) ‹_›).symm
      · rfl
    | negSucc e =>
      show (if digits.log2 + 1076 ≤ 3 * (e + 1) then zero negative
        else ofRatio negative (digits * one) (10 ^ (e + 1))) = _
      rw [show (Int.negSucc e).toNat = 0 from rfl, show (-Int.negSucc e).toNat = e + 1 from rfl,
        Nat.pow_zero, Nat.mul_one]
      split
      · exact (ofRatio_of_log2_le negative ‹_›).symm
      · rfl

/-- Zeros at the end of the digits do not count. -/
theorem ofDecimal_scale (negative : Bool) (digits k : Nat) (e : Int) :
    ofDecimal negative (digits * 10 ^ k) (e - k) = ofDecimal negative digits e := by
  have hpos : ∀ i : Nat, 0 < 10 ^ i := fun i => Nat.pow_pos (by decide)
  have hexp : k + (e - k).toNat + (-e).toNat = e.toNat + (-(e - k)).toNat := by omega
  rw [ofDecimal_eq, ofDecimal_eq, ofRatio, ofRatio]
  refine congrArg _ (roundUnits_congr (hpos _) (hpos _) ?_)
  generalize one = unit
  calc digits * 10 ^ k * 10 ^ (e - k).toNat * unit * 10 ^ (-e).toNat
    _ = digits * unit * 10 ^ (k + (e - k).toNat + (-e).toNat) := by
      rw [Nat.pow_add, Nat.pow_add]
      ac_rfl
    _ = digits * 10 ^ e.toNat * unit * 10 ^ (-(e - k)).toNat := by
      rw [hexp, Nat.pow_add]
      ac_rfl

end ScriptCore.Double
