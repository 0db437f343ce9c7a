import ScriptCore.Double.Spacing

/-! Long numbers as doubles.

A number with more than 53 bits is rounded by what follows the 53rd. Zeros behind it only move its exponent
(`roundUnits_mul_two_pow`), so a product with a power of two is the double of the product, and less than half a
step is lost when it is added (`add_ofNat_of_lt`). What stands behind more than 53 bits is noticed only where
they are halfway between two doubles: if the lower one is even, zeros leave the number there, and anything else
takes it to the upper one (`ofNat_append`). -/
namespace ScriptCore

/-! ### Halves -/

/-- Halfway between two integers, the lower of which is even. -/
def HalvesDown (num den : Nat) : Prop := 2 * (num % den) = den ∧ num / den % 2 = 0

instance (num den : Nat) : Decidable (HalvesDown num den) := inferInstanceAs (Decidable (_ ∧ _))

theorem roundHalfEven_mul_add (k : Nat) {den r : Nat} (h : 2 * r < den) : roundHalfEven (k * den + r) den = k := by
  have hr : r < den := by omega
  have hrest : (k * den + r) % den = r := by rw [Nat.mul_add_mod_self_right, Nat.mod_eq_of_lt hr]
  rw [roundHalfEven_of_lt (by rwa [hrest]), Nat.mul_comm, Nat.mul_add_div (by omega), Nat.div_eq_of_lt hr,
    Nat.add_zero]

/-- What is added below the last place of a fraction counts only above an even half. -/
theorem roundHalfEven_append (num den : Nat) {w r : Nat} (hr : r < w) :
    roundHalfEven (num * w + r) (2 * den * w) = roundHalfEven num (2 * den) +
      if HalvesDown num (2 * den) ∧ r ≠ 0 then 1 else 0 := by
  have hw : 0 < w := Nat.zero_lt_of_lt hr
  have hden : 2 * den * w = 2 * (den * w) := Nat.mul_assoc _ _ _
  have hhead : (num * w + r) / w = num := by
    rw [Nat.mul_comm, Nat.mul_add_div hw, Nat.div_eq_of_lt hr, Nat.add_zero]
  have hfloor : (num * w + r) / (2 * den * w) = num / (2 * den) := by
    rw [Nat.mul_comm (2 * den), ← Nat.div_div_eq_div_mul, hhead]
  have hrest : (num * w + r) % (2 * den * w) = num % (2 * den) * w + r := by
    rw [Nat.mul_comm (2 * den), Nat.mod_mul, hhead, Nat.mul_add_mod_self_right, Nat.mod_eq_of_lt hr, Nat.add_comm,
      Nat.mul_comm w]
  rcases Nat.lt_trichotomy (num % (2 * den)) den with hlt | heq | hgt
  · have hstep := Nat.mul_le_mul_right w hlt
    rw [Nat.succ_mul] at hstep
    rw [roundHalfEven_of_lt (by omega), roundHalfEven_of_lt (by omega), hfloor,
      if_neg fun h => by have hhalf := h.1.1; omega, Nat.add_zero]
  · by_cases hzero : r = 0
    · rw [if_neg fun h => h.2 hzero, hzero, Nat.add_zero, Nat.add_zero, roundHalfEven_scale _ _ _ hw]
    · rw [roundHalfEven_of_gt (by rw [hrest, heq]; omega), hfloor, roundHalfEven_of_eq (by rw [heq])]
      by_cases heven : num / (2 * den) % 2 = 0
      · rw [if_pos heven, if_pos ⟨⟨by rw [heq], heven⟩, hzero⟩]
      · rw [if_neg heven, if_neg fun h => heven h.1.2, Nat.add_zero]
  · have hstep := Nat.mul_lt_mul_of_pos_right hgt hw
    rw [roundHalfEven_of_gt (by omega), roundHalfEven_of_gt (by omega), hfloor,
      if_neg fun h => by have hhalf := h.1.1; omega, Nat.add_zero]

namespace Double

/-! ### Long numbers in units -/

theorem exists_shift {n : Nat} (hn : 2 ^ 52 ≤ n) :
    ∃ s, n.log2 = 52 + s ∧ 2 ^ 52 * 2 ^ s ≤ n ∧ n < 2 ^ 53 * 2 ^ s := by
  have hzero : n ≠ 0 := by omega
  have hlog := (Nat.le_log2 hzero).mpr hn
  obtain ⟨hlo, hhi⟩ := (Nat.log2_eq_iff hzero).mp rfl
  refine ⟨n.log2 - 52, by omega, ?_, ?_⟩
  · rwa [← Nat.pow_add, Nat.add_sub_cancel' hlog]
  · rwa [← Nat.pow_add, show 53 + (n.log2 - 52) = n.log2 + 1 by omega]

theorem roundUnits_of_shift {n s : Nat} (hlo : 2 ^ 52 * 2 ^ s ≤ n) (hhi : n < 2 ^ 53 * 2 ^ s) :
    roundUnits n 1 = min infinityPattern (s * 2 ^ 52 + roundHalfEven n (2 ^ s)) := by
  have hzero : n ≠ 0 := Nat.ne_of_gt (Nat.lt_of_lt_of_le (Nat.mul_pos (by decide) (Nat.two_pow_pos s)) hlo)
  have hlog : n.log2 = 52 + s := by
    rw [Nat.log2_eq_iff hzero, Nat.pow_add, show 52 + s + 1 = 53 + s by omega, Nat.pow_add]
    exact ⟨hlo, hhi⟩
  rw [roundUnits, Nat.div_one, hlog, Nat.add_sub_cancel_left, Nat.one_mul]

/-- Zeros at the end of a number move its exponent. -/
theorem roundUnits_mul_two_pow {n : Nat} (hn : 2 ^ 52 ≤ n) (k : Nat) :
    roundUnits (n * 2 ^ k) 1 = min infinityPattern (roundUnits n 1 + k * 2 ^ 52) := by
  obtain ⟨s, -, hlo, hhi⟩ := exists_shift hn
  have hpos := Nat.two_pow_pos k
  have hshifted : roundUnits (n * 2 ^ k) 1 =
      min infinityPattern ((s + k) * 2 ^ 52 + roundHalfEven (n * 2 ^ k) (2 ^ (s + k))) := by
    refine roundUnits_of_shift ?_ ?_
    · rw [Nat.pow_add, ← Nat.mul_assoc]
      exact Nat.mul_le_mul_right _ hlo
    · rw [Nat.pow_add, ← Nat.mul_assoc]
      exact Nat.mul_lt_mul_of_pos_right hhi hpos
  rw [Nat.pow_add, roundHalfEven_scale _ _ _ hpos] at hshifted
  rw [hshifted, roundUnits_of_shift hlo hhi]
  omega

/-- Less than half a step is lost. -/
theorem roundUnits_add_of_lt {p e r : Nat} (hp : p ≤ infinityPattern) (he : 2 ^ 52 * 2 ^ e ≤ unitsOf p)
    (hr : 2 * r < 2 ^ e) : roundUnits (unitsOf p + r) 1 = p := by
  obtain ⟨s, -, hlo, hhi⟩ := exists_shift (Nat.le_trans (Nat.le_mul_of_pos_right _ (Nat.two_pow_pos e)) he)
  have hstep : 2 ^ e ≤ 2 ^ s := by
    have hlt : 2 ^ e < 2 ^ (s + 1) := by
      rw [Nat.pow_add_one]
      omega
    exact Nat.pow_le_pow_right (by decide) (Nat.le_of_lt_succ ((Nat.pow_lt_pow_iff_right (by decide)).mp hlt))
  obtain ⟨k, hk⟩ := two_pow_dvd_unitsOf hlo
  rw [Nat.mul_comm] at hk
  have hroom : unitsOf p + r < 2 ^ 53 * 2 ^ s := by
    have hless : k < 2 ^ 53 := Nat.lt_of_mul_lt_mul_right (hk ▸ hhi)
    have hmul := Nat.mul_le_mul_right (2 ^ s) hless
    rw [Nat.succ_mul, ← hk] at hmul
    omega
  have hrounded := roundUnits_unitsOf p hp
  rw [roundUnits_of_shift hlo hhi, hk, roundHalfEven_mul _ _ (Nat.two_pow_pos s)] at hrounded
  rw [roundUnits_of_shift (Nat.le_add_right_of_le hlo) hroom, hk, roundHalfEven_mul_add _ (by omega), hrounded]

/-- An integer halfway between two doubles, the lower of which is even. -/
def TiesDown (n : Nat) : Prop := HalvesDown n (2 ^ (n.log2 - 52))

instance (n : Nat) : Decidable (TiesDown n) := inferInstanceAs (Decidable (HalvesDown _ _))

theorem two_pow_le_of_tiesDown {n : Nat} (hn : TiesDown n) : 2 ^ 53 ≤ n := by
  refine Nat.le_of_not_lt fun hlt => ?_
  have hshift : n.log2 - 52 = 0 := by
    by_cases hzero : n = 0
    · rw [hzero, Nat.log2_zero]
    · have hlog := (Nat.log2_lt hzero).mpr hlt
      omega
  rw [TiesDown, HalvesDown, hshift] at hn
  omega

/-- What stands behind more than 53 bits moves a double only from an even half. -/
theorem exists_roundUnits_append {n j r : Nat} (hn : 2 ^ 53 ≤ n) (hr : r < 2 ^ j) :
    ∃ u, roundUnits (n * 2 ^ j) 1 = min infinityPattern u ∧
      roundUnits (n * 2 ^ j + r) 1 = min infinityPattern (u + if TiesDown n ∧ r ≠ 0 then 1 else 0) := by
  obtain ⟨s, hlog, hlo, hhi⟩ := exists_shift (show 2 ^ 52 ≤ n by omega)
  obtain ⟨t, rfl⟩ : ∃ t, s = t + 1 := by
    refine Nat.exists_eq_add_one_of_ne_zero fun hzero => ?_
    rw [hzero] at hhi
    omega
  have hshift : n.log2 - 52 = t + 1 := by omega
  have hpos := Nat.two_pow_pos j
  have hlow : 2 ^ 52 * 2 ^ (t + 1 + j) ≤ n * 2 ^ j := by
    rw [Nat.pow_add _ _ j, ← Nat.mul_assoc]
    exact Nat.mul_le_mul_right _ hlo
  have hhigh : n * 2 ^ j + r < 2 ^ 53 * 2 ^ (t + 1 + j) := by
    have hstep := Nat.mul_le_mul_right (2 ^ j) hhi
    rw [Nat.succ_mul, Nat.mul_assoc, ← Nat.pow_add] at hstep
    omega
  have hties : TiesDown n ↔ HalvesDown n (2 ^ (t + 1)) := by rw [TiesDown, hshift]
  have hrounded := roundHalfEven_append n (2 ^ t) hr
  simp only [← Nat.pow_add_one', ← hties] at hrounded
  refine ⟨(t + 1 + j) * 2 ^ 52 + roundHalfEven n (2 ^ (t + 1)), ?_, ?_⟩
  · rw [roundUnits_of_shift hlow (by omega), Nat.pow_add _ _ j, roundHalfEven_scale _ _ _ hpos]
  · rw [roundUnits_of_shift (by omega) hhigh, Nat.pow_add _ _ j, hrounded, ← Nat.add_assoc]

/-! ### Integers -/

theorem pattern_ofNat (n : Nat) : (ofNat n).pattern = roundUnits (n * one) 1 := pattern_ofRatio _ _ _

theorem isNegative_ofNat (n : Nat) : (ofNat n).isNegative = false := isNegative_ofRatio _ _ _

/-- A positive double is known by its pattern. -/
theorem eq_ofNat {d : Double} {n : Nat} (hsign : d.isNegative = false) (hd : d.pattern = (ofNat n).pattern) :
    d = ofNat n := by
  rw [← ofPattern_pattern d, ← ofPattern_pattern (ofNat n), hsign, isNegative_ofNat, hd]

theorem ofNat_eq_infinity {n : Nat} (hn : ¬ (ofNat n).isFinite = true) : ofNat n = infinity false := by
  have hinfinite := eq_infinity (isNaN_ofRatio false (n * one) 1) (Bool.eq_false_iff.mpr hn)
  rwa [isNegative_ofRatio] at hinfinite

section Infinity
variable {b : Double} (hb : b.isFinite = true)
include hb

theorem infinity_mul (hzero : b.isZero = false) (hsign : b.isNegative = false) :
    (infinity false).mul b = infinity false := by
  have hnumber : (infinity false).isNaN = false := by decide
  have hinfinite : (infinity false).isInfinite = true := by decide
  have hpositive : (infinity false).isNegative = false := by decide
  simp only [mul, hnumber, isNaN_of_isFinite hb, hinfinite, hpositive, hzero, hsign, Bool.or_self, if_true,
    Bool.false_eq_true, if_false, bne_self_eq_false]

theorem infinity_add : (infinity false).add b = infinity false := by
  have hnumber : (infinity false).isNaN = false := by decide
  have hinfinite : (infinity false).isInfinite = true := by decide
  simp only [add, hnumber, isNaN_of_isFinite hb, hinfinite, isInfinite_of_isFinite hb, Bool.or_self, if_true,
    Bool.false_and, Bool.false_eq_true, if_false]

end Infinity

theorem unitsOf_twoPow : unitsOf (2 ^ 52) = 2 ^ 52 := by decide

theorem two_pow_le_one : 2 ^ 52 ≤ one := by decide +kernel

section Factor
variable (n : Nat) {k : Nat} (hk : k < 53)
include hk

/-- The double of a large number is as large. -/
theorem le_magnitude_ofNat (hn : 2 ^ 53 * 2 ^ k ≤ n) : 2 ^ 53 * 2 ^ k * one ≤ (ofNat n).magnitude := by
  have hunits : unitsOf ((k + 1074 + 2) * 2 ^ 52) = 2 ^ 53 * 2 ^ k * one := by
    rw [unitsOf_powerOfTwo, ← two_pow_mul_one, Nat.mul_assoc]
  have hfinite : (k + 1074 + 2) * 2 ^ 52 ≤ infinityPattern := by
    rw [infinityPattern]
    omega
  rw [← hunits, magnitude, pattern_ofNat]
  refine unitsOf_le (le_roundUnits_of_le Nat.one_pos hfinite ?_)
  rw [hunits, Nat.mul_one]
  exact Nat.mul_le_mul_right one hn

/-- A product with a power of two is the double of the product. -/
theorem mul_ofNat_two_pow : (ofNat n).mul (ofNat (2 ^ k)) = ofNat (n * 2 ^ k) := by
  have hpower : 2 ^ k < 2 ^ 53 := Nat.pow_lt_pow_right (by decide) hk
  have hfactor := isFinite_ofNat hpower
  by_cases hzero : n = 0
  · subst hzero
    rw [mul_of_isFinite (isFinite_ofNat (by decide)) hfactor, magnitude_ofNat (by decide), isNegative_ofNat,
      isNegative_ofNat, Nat.zero_mul, Nat.zero_mul, Nat.zero_mul, ofNat, Nat.zero_mul, ofRatio, ofRatio,
      roundUnits_zero, roundUnits_zero]
    rfl
  have hlong : 2 ^ 52 ≤ n * one :=
    Nat.le_trans two_pow_le_one (Nat.le_mul_of_pos_left one (Nat.pos_of_ne_zero hzero))
  have hproduct : (ofNat (n * 2 ^ k)).pattern = min infinityPattern ((ofNat n).pattern + k * 2 ^ 52) := by
    rw [pattern_ofNat, pattern_ofNat, Nat.mul_right_comm, roundUnits_mul_two_pow hlong]
  by_cases hn : (ofNat n).isFinite = true
  · refine eq_ofNat ?_ ?_
    · rw [mul_of_isFinite hn hfactor, isNegative_ofRatio, isNegative_ofNat, isNegative_ofNat, bne_self_eq_false]
    · have hunits : 2 ^ 52 ≤ (ofNat n).magnitude := by
        have hle : 2 ^ 52 ≤ (ofNat n).pattern := by
          rw [pattern_ofNat]
          exact le_roundUnits_of_le Nat.one_pos (by decide) (by rwa [unitsOf_twoPow, Nat.mul_one])
        exact unitsOf_twoPow ▸ unitsOf_le hle
      have hscale := roundUnits_scale ((ofNat n).magnitude * 2 ^ k) 1 one_pos
      rw [Nat.one_mul] at hscale
      rw [mul_of_isFinite hn hfactor, pattern_ofRatio, magnitude_ofNat hpower, ← Nat.mul_assoc, hscale,
        roundUnits_mul_two_pow hunits, magnitude, roundUnits_unitsOf _ (Nat.le_of_lt (of_decide_eq_true hn)),
        hproduct]
  · have hinfinite := ofNat_eq_infinity hn
    have hpattern : (infinity false).pattern = infinityPattern := by decide
    have hpositive : (ofNat (2 ^ k)).isZero = false := by
      rw [isZero_ofNat hpower]
      exact decide_eq_false (Nat.ne_of_gt (Nat.two_pow_pos k))
    rw [hinfinite, infinity_mul hfactor hpositive (isNegative_ofNat _)]
    refine eq_ofNat (by decide) ?_
    rw [hproduct, hinfinite, hpattern]
    omega

/-- Less than half of the step between large numbers is lost. -/
theorem add_ofNat_of_lt {m : Nat} (hm : 2 ^ 53 * 2 ^ k ≤ m) (hn : n < 2 ^ k) :
    (ofNat m).add (ofNat n) = ofNat m := by
  have hsmall : n < 2 ^ 53 := Nat.lt_trans hn (Nat.pow_lt_pow_right (by decide) hk)
  have hadded := isFinite_ofNat hsmall
  by_cases hfinite : (ofNat m).isFinite = true
  · have hsum : (ofNat m).units + (ofNat n).units = (((ofNat m).magnitude + n * one : Nat) : Int) := by
      rw [units_ofNat hsmall, units, isNegative_ofNat, if_neg Bool.false_ne_true, Int.natCast_add, Int.natCast_mul]
    have hstep : 2 ^ (k + 1 + 1074) = 2 * (2 ^ k * one) := by rw [← two_pow_mul_one, Nat.pow_add_one', Nat.mul_assoc]
    have hpattern : roundUnits ((ofNat m).magnitude + n * one) 1 = (ofNat m).pattern := by
      have hlarge := le_magnitude_ofNat m hk hm
      have hlost := Nat.mul_lt_mul_of_pos_right hn one_pos
      rw [Nat.mul_assoc] at hlarge
      exact roundUnits_add_of_lt (Nat.le_of_lt (of_decide_eq_true hfinite)) (by rw [hstep, ← magnitude]; omega)
        (by rw [hstep]; omega)
    rw [add_of_isFinite hfinite hadded, hsum, Int.natAbs_natCast]
    refine eq_ofNat ?_ ?_
    · rw [isNegative_ofRatio, isNegative_ofNat, Bool.false_and, decide_eq_false (by omega), ite_self]
    · rw [pattern_ofRatio, hpattern]
  · rw [ofNat_eq_infinity hfinite, infinity_add hadded]

end Factor

/-- What stands behind more than 53 bits moves the double of an integer only from an even half. -/
theorem ofNat_append {n j r : Nat} (hn : 2 ^ 53 ≤ n) (hr : r < 2 ^ j) :
    if TiesDown n ∧ r ≠ 0 ∧ (ofNat (n * 2 ^ j)).isFinite = true
      then (ofNat (n * 2 ^ j)).pattern + 1 = (ofNat (n * 2 ^ j + r)).pattern
      else ofNat (n * 2 ^ j) = ofNat (n * 2 ^ j + r) := by
  have hrest : r * one < 2 ^ (j + 1074) := by
    rw [← two_pow_mul_one]
    exact Nat.mul_lt_mul_of_pos_right hr one_pos
  have hnonzero : r * one ≠ 0 ↔ r ≠ 0 :=
    ⟨fun h hzero => h (by rw [hzero, Nat.zero_mul]), fun h => Nat.mul_ne_zero h (Nat.ne_of_gt one_pos)⟩
  obtain ⟨u, hhead, hwhole⟩ := exists_roundUnits_append hn hrest
  rw [← two_pow_mul_one, ← Nat.mul_assoc] at hhead hwhole
  rw [← Nat.add_mul, ← pattern_ofNat] at hwhole
  rw [← pattern_ofNat] at hhead
  simp only [hnonzero] at hwhole
  have hfinite : (ofNat (n * 2 ^ j)).isFinite = true ↔ u < infinityPattern := by
    rw [isFinite, decide_eq_true_iff, hhead]
    omega
  split
  · rename_i hmoved
    obtain ⟨hties, hzero, hlt⟩ := hmoved
    rw [hfinite] at hlt
    rw [hhead, hwhole, if_pos ⟨hties, hzero⟩]
    omega
  · rename_i hstays
    refine eq_ofNat (isNegative_ofNat _) ?_
    rw [hhead, hwhole]
    by_cases hmoved : TiesDown n ∧ r ≠ 0
    · have hlarge : ¬ u < infinityPattern := fun hlt => hstays ⟨hmoved.1, hmoved.2, hfinite.mpr hlt⟩
      rw [if_pos hmoved]
      omega
    · rw [if_neg hmoved, Nat.add_zero]

end Double
end ScriptCore
