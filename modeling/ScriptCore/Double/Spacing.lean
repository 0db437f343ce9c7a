import ScriptCore.Double.IntegerPart

/-! The steps between doubles.

From `2 ^ (52 + e)` units on magnitudes are multiples of `2 ^ e` units (`two_pow_dvd_unitsOf`), and multiples with
less than 53 bits are magnitudes (`exists_unitsOf_mul_two_pow`). So the remainder of two doubles is a double, and
nothing is rounded to find it (`magnitude_rem`). Where a result has to be rounded, it moves by half a step at
most (`unitsOf_roundUnits_le`, `le_unitsOf_roundUnits`). -/
namespace ScriptCore.Double

/-! ### Multiples -/

/-- Large magnitudes are multiples of a power of two. -/
theorem two_pow_dvd_unitsOf {p e : Nat} (hp : 2 ^ 52 * 2 ^ e ≤ unitsOf p) : 2 ^ e ∣ unitsOf p := by
  have hpos := Nat.two_pow_pos e
  by_cases hsmall : p < 2 ^ 52
  · rw [unitsOf_of_lt p hsmall] at hp
    have hle := Nat.le_mul_of_pos_right (2 ^ 52) hpos
    omega
  · obtain ⟨e', f, hf, rfl⟩ := exists_exponent_fraction p (by omega)
    rw [unitsOf_add e' f hf] at hp ⊢
    have hexp : e ≤ e' := by
      refine Nat.le_of_not_lt fun hlt => ?_
      have hstep : 2 * 2 ^ e' ≤ 2 ^ e := by
        rw [← Nat.pow_add_one']
        exact Nat.pow_le_pow_right (by decide) hlt
      have hupper : (2 ^ 52 + f) * 2 ^ e' < 2 ^ 53 * 2 ^ e' :=
        Nat.mul_lt_mul_of_pos_right (by omega) (Nat.two_pow_pos e')
      omega
    exact Nat.dvd_mul_left_of_dvd (Nat.pow_dvd_pow 2 hexp) _

/-- Twice a magnitude is a magnitude. -/
theorem exists_unitsOf_two_mul (p : Nat) : ∃ q, unitsOf q = 2 * unitsOf p := by
  by_cases hp : p < 2 ^ 52
  · refine ⟨2 * p, ?_⟩
    rw [unitsOf_of_lt p hp]
    by_cases hdouble : 2 * p < 2 ^ 52
    · exact unitsOf_of_lt _ hdouble
    · have hunits := unitsOf_add 0 (2 * p - 2 ^ 52) (by omega)
      rw [show (0 + 1) * 2 ^ 52 + (2 * p - 2 ^ 52) = 2 * p by omega] at hunits
      omega
  · obtain ⟨e, f, hf, rfl⟩ := exists_exponent_fraction p (by omega)
    have hpow : 2 ^ (e + 1) = 2 * 2 ^ e := Nat.pow_add_one'
    exact ⟨(e + 1 + 1) * 2 ^ 52 + f, by rw [unitsOf_add _ f hf, unitsOf_add e f hf, hpow, Nat.mul_left_comm]⟩

/-- What has 53 bits and then zeros is a magnitude. -/
theorem exists_unitsOf_mul_two_pow {n : Nat} (hn : n < 2 ^ 53) (e : Nat) : ∃ p, unitsOf p = n * 2 ^ e := by
  induction e with
  | zero =>
    refine ⟨n, ?_⟩
    rw [Nat.pow_zero, Nat.mul_one]
    by_cases hsmall : n < 2 ^ 52
    · exact unitsOf_of_lt n hsmall
    · have hunits := unitsOf_add 0 (n - 2 ^ 52) (by omega)
      rw [show (0 + 1) * 2 ^ 52 + (n - 2 ^ 52) = n by omega] at hunits
      omega
  | succ e ih =>
    obtain ⟨p, hp⟩ := ih
    obtain ⟨q, hq⟩ := exists_unitsOf_two_mul p
    refine ⟨q, ?_⟩
    rw [hq, hp, Nat.pow_add_one', Nat.mul_left_comm]

/-! ### Remainders -/

/-- A magnitude has 53 bits, then zeros, and what is not below it has these zeros as well. -/
theorem exists_significand (q : Nat) :
    ∃ n e, n < 2 ^ 53 ∧ unitsOf q = n * 2 ^ e ∧ ∀ p, q ≤ p → 2 ^ e ∣ unitsOf p := by
  by_cases hq : q < 2 ^ 52
  · exact ⟨q, 0, by omega, by rw [unitsOf_of_lt q hq, Nat.pow_zero, Nat.mul_one], fun p _ => Nat.one_dvd _⟩
  · obtain ⟨e, f, hf, rfl⟩ := exists_exponent_fraction q (by omega)
    refine ⟨2 ^ 52 + f, e, by omega, unitsOf_add e f hf, fun p hp => two_pow_dvd_unitsOf ?_⟩
    refine Nat.le_trans ?_ (unitsOf_le hp)
    rw [unitsOf_add e f hf]
    exact Nat.mul_le_mul_right _ (Nat.le_add_right _ _)

/-- The remainder of magnitudes is a magnitude. -/
theorem exists_unitsOf_mod (p : Nat) {q : Nat} (hq : 0 < unitsOf q) : ∃ r ≤ p, unitsOf r = unitsOf p % unitsOf q := by
  have hbelow : ∀ r, unitsOf r = unitsOf p % unitsOf q → r ≤ p := fun r hr =>
    Nat.le_of_not_lt fun hlt => Nat.not_lt.mpr (hr ▸ Nat.mod_le _ _) (unitsOf_lt hlt)
  rcases Nat.lt_or_ge p q with hlt | hle
  · exact ⟨p, Nat.le_refl p, (Nat.mod_eq_of_lt (unitsOf_lt hlt)).symm⟩
  · obtain ⟨n, e, hn, hunits, hdvd⟩ := exists_significand q
    obtain ⟨k, hk⟩ := hdvd p hle
    have hpos : 0 < n := Nat.pos_of_ne_zero fun hzero => by rw [hunits, hzero, Nat.zero_mul] at hq; omega
    have hmod : unitsOf p % unitsOf q = k % n * 2 ^ e := by
      rw [hk, hunits, Nat.mul_comm (2 ^ e) k, Nat.mul_mod_mul_right]
    obtain ⟨r, hr⟩ := exists_unitsOf_mul_two_pow (Nat.lt_trans (Nat.mod_lt k hpos) hn) e
    exact ⟨r, hbelow r (hr.trans hmod.symm), hr.trans hmod.symm⟩

section Remainder
variable {a b : Double} (ha : a.isFinite = true) (hb : b.isFinite = true) (hzero : b.isZero = false)
include ha hb hzero

/-- A remainder is exact. -/
theorem exists_rem_eq : ∃ r, r < infinityPattern ∧ unitsOf r = a.magnitude % b.magnitude ∧
    a.rem b = ofPattern a.isNegative r := by
  obtain ⟨r, hle, hr⟩ := exists_unitsOf_mod a.pattern (magnitude_pos_iff.mpr hzero)
  have hfinite : r < infinityPattern := Nat.lt_of_le_of_lt hle (of_decide_eq_true ha)
  have hrounded : roundUnits (a.magnitude % b.magnitude) 1 = r := by
    rw [magnitude, magnitude, ← hr, roundUnits_unitsOf r (Nat.le_of_lt hfinite)]
  exact ⟨r, hfinite, hr, by rw [rem_of_isFinite ha hb hzero, ofRatio, hrounded]⟩

theorem isFinite_rem : (a.rem b).isFinite = true := by
  obtain ⟨r, hfinite, -, heq⟩ := exists_rem_eq ha hb hzero
  rw [heq, isFinite_ofPattern _ hfinite]

theorem isNegative_rem : (a.rem b).isNegative = a.isNegative := by
  rw [rem_of_isFinite ha hb hzero, isNegative_ofRatio]

theorem units_rem : (a.rem b).units =
    if a.isNegative then -((a.magnitude % b.magnitude : Nat) : Int) else (a.magnitude % b.magnitude : Nat) := by
  obtain ⟨r, hfinite, hr, heq⟩ := exists_rem_eq ha hb hzero
  rw [heq, units_ofPattern _ (lt_of_le_infinityPattern (Nat.le_of_lt hfinite)), hr]

theorem magnitude_rem : (a.rem b).magnitude = a.magnitude % b.magnitude := by
  rw [← natAbs_units, units_rem ha hb hzero]
  split <;> omega

end Remainder

/-! ### Distance of a rounded fraction -/

/-- The rounded bits, shifted back, are the magnitude of the pattern, with a carry or without. -/
theorem unitsOf_shifted {s n : Nat} (hn : n ≤ 2 ^ 53) (hs : 0 < s → 2 ^ 52 ≤ n) :
    unitsOf (s * 2 ^ 52 + n) = n * 2 ^ s := by
  by_cases hsmall : n < 2 ^ 52
  · obtain rfl : s = 0 := by omega
    rw [Nat.zero_mul, Nat.zero_add, unitsOf_of_lt n hsmall, Nat.pow_zero, Nat.mul_one]
  · rcases Nat.lt_or_eq_of_le hn with hlt | rfl
    · rw [show s * 2 ^ 52 + n = (s + 1) * 2 ^ 52 + (n - 2 ^ 52) by omega, unitsOf_add s _ (by omega),
        Nat.add_sub_cancel' (Nat.le_of_not_lt hsmall)]
    · have hpow : 2 ^ (s + 1) = 2 * 2 ^ s := Nat.pow_add_one'
      rw [show s * 2 ^ 52 + 2 ^ 53 = (s + 1 + 1) * 2 ^ 52 + 0 by omega, unitsOf_add (s + 1) 0 (by decide), hpow,
        ← Nat.mul_assoc]

/-- Unless the range ends, the pattern of a rounded fraction is not cut off. -/
theorem roundUnits_of_lt {num den : Nat} (hfinite : roundUnits num den < infinityPattern) :
    roundUnits num den = ((num / den).log2 - 52) * 2 ^ 52 +
      roundHalfEven num (den * 2 ^ ((num / den).log2 - 52)) := by
  unfold roundUnits at hfinite ⊢
  dsimp only at hfinite ⊢
  omega

section Distance
variable (num : Nat) {den : Nat} (hden : 0 < den)
include hden

theorem unitsOf_unbounded : unitsOf (((num / den).log2 - 52) * 2 ^ 52 +
      roundHalfEven num (den * 2 ^ ((num / den).log2 - 52))) =
    roundHalfEven num (den * 2 ^ ((num / den).log2 - 52)) * 2 ^ ((num / den).log2 - 52) :=
  unitsOf_shifted (roundHalfEven_shift_le num hden) fun hshift => le_roundHalfEven_shift hden (by omega)

/-- The step at a fraction, from a bound on it. -/
theorem two_pow_shift_le {e : Nat} (hnum : num < 2 ^ (e + 53) * den) : 2 ^ ((num / den).log2 - 52) ≤ 2 ^ e := by
  have hquotient := (Nat.div_lt_iff_lt_mul hden).mpr hnum
  refine Nat.pow_le_pow_right (by decide) ?_
  by_cases hzero : num / den = 0
  · rw [hzero, Nat.log2_zero, Nat.zero_sub]
    exact Nat.zero_le e
  · have hlog := (Nat.log2_lt hzero).mpr hquotient
    omega

variable {num} {e : Nat} (hnum : num < 2 ^ (e + 53) * den)
include hnum

/-- Rounding adds half a step at most. -/
theorem unitsOf_roundUnits_le : 2 * (unitsOf (roundUnits num den) * den) ≤ 2 * num + den * 2 ^ e := by
  have hround := two_mul_roundHalfEven_le num (den * 2 ^ ((num / den).log2 - 52))
  have hunits : unitsOf (roundUnits num den) ≤ _ := unitsOf_le (Nat.min_le_right _ _)
  rw [unitsOf_unbounded num hden] at hunits
  calc 2 * (unitsOf (roundUnits num den) * den)
    _ ≤ 2 * (roundHalfEven num (den * 2 ^ ((num / den).log2 - 52)) * 2 ^ ((num / den).log2 - 52) * den) :=
      Nat.mul_le_mul_left 2 (Nat.mul_le_mul_right den hunits)
    _ = 2 * (roundHalfEven num (den * 2 ^ ((num / den).log2 - 52)) * (den * 2 ^ ((num / den).log2 - 52))) := by
      rw [Nat.mul_assoc, Nat.mul_comm (2 ^ _) den]
    _ ≤ 2 * num + den * 2 ^ ((num / den).log2 - 52) := hround
    _ ≤ 2 * num + den * 2 ^ e := Nat.add_le_add_left (Nat.mul_le_mul_left den (two_pow_shift_le num hden hnum)) _

/-- Rounding takes half a step away at most, unless the range ends. -/
theorem le_unitsOf_roundUnits (hfinite : roundUnits num den < infinityPattern) :
    2 * num ≤ 2 * (unitsOf (roundUnits num den) * den) + den * 2 ^ e := by
  have hround := le_two_mul_roundHalfEven num (Nat.mul_pos hden (Nat.two_pow_pos ((num / den).log2 - 52)))
  calc 2 * num
    _ ≤ 2 * (roundHalfEven num (den * 2 ^ ((num / den).log2 - 52)) * (den * 2 ^ ((num / den).log2 - 52))) +
        den * 2 ^ ((num / den).log2 - 52) := hround
    _ = 2 * (unitsOf (roundUnits num den) * den) + den * 2 ^ ((num / den).log2 - 52) := by
      rw [roundUnits_of_lt hfinite, unitsOf_unbounded num hden, Nat.mul_assoc, Nat.mul_comm (2 ^ _) den]
    _ ≤ 2 * (unitsOf (roundUnits num den) * den) + den * 2 ^ e :=
      Nat.add_le_add_left (Nat.mul_le_mul_left den (two_pow_shift_le num hden hnum)) _

end Distance

/-! ### Bounds that are magnitudes -/

section Bounds
variable {num den p : Nat} (hden : 0 < den) (hp : p ≤ infinityPattern)
include hden hp

theorem roundUnits_le_of_le (h : num ≤ unitsOf p * den) : roundUnits num den ≤ p := by
  rw [← roundUnits_unitsOf p hp]
  exact roundUnits_mono hden Nat.one_pos (by rwa [Nat.mul_one])

theorem le_roundUnits_of_le (h : unitsOf p * den ≤ num) : p ≤ roundUnits num den := by
  rw [← roundUnits_unitsOf p hp]
  exact roundUnits_mono Nat.one_pos hden (by rwa [Nat.mul_one])

end Bounds

/-- What is small is finite. -/
theorem isFinite_of_magnitude_lt {d : Double} (hd : d.magnitude < 2 ^ 53 * one) : d.isFinite = true := by
  refine decide_eq_true (Nat.lt_of_not_le fun hle => Nat.not_le.mpr hd ?_)
  have hunits := unitsOf_le (Nat.le_trans (by decide : 1076 * 2 ^ 52 ≤ infinityPattern) hle)
  rwa [unitsOf_powerOfTwo 1074, ← one] at hunits

end ScriptCore.Double
