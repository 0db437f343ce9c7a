import ScriptCore.Double.Basic

/-! Words, patterns and units.

A double is its sign and its pattern (`ofPattern_pattern`). Patterns up to infinity are in the order of
their magnitudes (`unitsOf_lt`), and a magnitude that a double has is rounded to that double
(`roundUnits_unitsOf`). -/
namespace ScriptCore.Double

theorem pattern_lt (d : Double) : d.pattern < 2 ^ 63 := Nat.mod_lt _ (by decide)

theorem toNat_bits (d : Double) :
    d.bits.toNat = (if d.isNegative then 2 ^ 63 else 0) + d.pattern := by
  have hlt := d.bits.toNat_lt
  simp only [isNegative, pattern, decide_eq_true_eq]
  split <;> omega

theorem toNat_bits_ofPattern (negative : Bool) (p : Nat) (h : p < 2 ^ 63) :
    (ofPattern negative p).bits.toNat = (if negative then 2 ^ 63 else 0) + p := by
  simp only [ofPattern, UInt64.toNat_ofNat']
  apply Nat.mod_eq_of_lt
  split <;> omega

@[simp] theorem pattern_ofPattern (negative : Bool) (p : Nat) (h : p < 2 ^ 63) :
    (ofPattern negative p).pattern = p := by
  rw [pattern, toNat_bits_ofPattern negative p h]
  cases negative with
  | false => rw [if_neg Bool.false_ne_true, Nat.zero_add, Nat.mod_eq_of_lt h]
  | true => rw [if_pos rfl, Nat.add_mod_left, Nat.mod_eq_of_lt h]

@[simp] theorem isNegative_ofPattern (negative : Bool) (p : Nat) (h : p < 2 ^ 63) :
    (ofPattern negative p).isNegative = negative := by
  rw [isNegative, toNat_bits_ofPattern negative p h]
  cases negative with
  | false => rw [if_neg Bool.false_ne_true, Nat.zero_add, decide_eq_false (Nat.not_le.mpr h)]
  | true => rw [if_pos rfl, decide_eq_true (Nat.le_add_right _ p)]

theorem ofPattern_pattern (d : Double) : ofPattern d.isNegative d.pattern = d := by
  have h := toNat_bits_ofPattern d.isNegative d.pattern d.pattern_lt
  rw [← toNat_bits] at h
  have hbits := UInt64.toNat_inj.mp h
  generalize ofPattern d.isNegative d.pattern = e at hbits
  cases d
  cases e
  exact congrArg mk hbits

/-- A double that is a number and not finite is an infinity. -/
theorem eq_infinity {d : Double} (hnumber : d.isNaN = false) (hd : d.isFinite = false) :
    d = infinity d.isNegative := by
  have hpattern : d.pattern = infinityPattern :=
    Nat.le_antisymm (Nat.not_lt.mp (of_decide_eq_false hnumber)) (Nat.not_lt.mp (of_decide_eq_false hd))
  rw [infinity, ← hpattern, ofPattern_pattern]

/-! ### Magnitudes -/

/-- A magnitude outside the subnormals is a significand of 53 bits and a power of two. -/
theorem unitsOf_add (e f : Nat) (h : f < 2 ^ 52) :
    unitsOf ((e + 1) * 2 ^ 52 + f) = (2 ^ 52 + f) * 2 ^ e := by
  have hdiv : ((e + 1) * 2 ^ 52 + f) / 2 ^ 52 = e + 1 := by omega
  have hmod : ((e + 1) * 2 ^ 52 + f) % 2 ^ 52 = f := by omega
  rw [unitsOf, if_neg (by omega), hdiv, hmod, Nat.add_sub_cancel]

theorem unitsOf_of_lt (p : Nat) (h : p < 2 ^ 52) : unitsOf p = p := if_pos h

/-- The exponent and the fraction of a pattern that is not subnormal. -/
theorem exists_exponent_fraction (p : Nat) (h : 2 ^ 52 ≤ p) :
    ∃ e f, f < 2 ^ 52 ∧ p = (e + 1) * 2 ^ 52 + f :=
  ⟨p / 2 ^ 52 - 1, p % 2 ^ 52, Nat.mod_lt _ (by decide), by omega⟩

theorem unitsOf_lt_succ (p : Nat) : unitsOf p < unitsOf (p + 1) := by
  by_cases h : p + 1 < 2 ^ 52
  · rw [unitsOf_of_lt p (by omega), unitsOf_of_lt _ h]
    omega
  · by_cases hp : p < 2 ^ 52
    · obtain rfl : p = 2 ^ 52 - 1 := by omega
      decide
    · obtain ⟨e, f, hf, rfl⟩ := exists_exponent_fraction p (by omega)
      rw [unitsOf_add e f hf]
      by_cases hc : f + 1 < 2 ^ 52
      · rw [Nat.add_assoc, unitsOf_add e (f + 1) hc]
        exact Nat.mul_lt_mul_of_pos_right (by omega) (Nat.two_pow_pos e)
      · have hn : (e + 1) * 2 ^ 52 + f + 1 = (e + 1 + 1) * 2 ^ 52 + 0 := by omega
        have hpow : 2 ^ (e + 1) = 2 * 2 ^ e := Nat.pow_add_one'
        rw [hn, unitsOf_add (e + 1) 0 (by decide), hpow, ← Nat.mul_assoc]
        exact Nat.mul_lt_mul_of_pos_right (by omega) (Nat.two_pow_pos e)

theorem unitsOf_lt {p q : Nat} (h : p < q) : unitsOf p < unitsOf q := by
  induction h with
  | refl => exact unitsOf_lt_succ p
  | step _ ih => exact Nat.lt_trans ih (unitsOf_lt_succ _)

theorem unitsOf_le {p q : Nat} (h : p ≤ q) : unitsOf p ≤ unitsOf q := by
  rcases Nat.lt_or_eq_of_le h with h | rfl
  · exact Nat.le_of_lt (unitsOf_lt h)
  · exact Nat.le_refl _

theorem unitsOf_inj {p q : Nat} (h : unitsOf p = unitsOf q) : p = q := by
  rcases Nat.lt_trichotomy p q with hlt | heq | hgt
  · exact absurd h (Nat.ne_of_lt (unitsOf_lt hlt))
  · exact heq
  · exact absurd h.symm (Nat.ne_of_lt (unitsOf_lt hgt))

/-! ### Rounding -/

theorem log2_significand (e f : Nat) (h : f < 2 ^ 52) : ((2 ^ 52 + f) * 2 ^ e).log2 = 52 + e := by
  have hpos : (2 ^ 52 + f) * 2 ^ e ≠ 0 :=
    Nat.mul_ne_zero (by omega) (Nat.ne_of_gt (Nat.two_pow_pos e))
  apply (Nat.log2_eq_iff hpos).mpr
  constructor
  · rw [Nat.pow_add]
    exact Nat.mul_le_mul_right _ (by omega)
  · have hpow : 2 ^ (e + 1) = 2 * 2 ^ e := Nat.pow_add_one'
    rw [Nat.add_assoc, Nat.pow_add 2 52, hpow, ← Nat.mul_assoc]
    exact Nat.mul_lt_mul_of_pos_right (by omega) (Nat.two_pow_pos e)

/-- A magnitude that some double has is its own rounding. -/
theorem roundUnits_unitsOf (p : Nat) (h : p ≤ infinityPattern) : roundUnits (unitsOf p) 1 = p := by
  by_cases hp : p < 2 ^ 52
  · have hlog : p.log2 - 52 = 0 := by
      by_cases h0 : p = 0
      · simp [h0]
      · have hlog := (Nat.log2_lt h0).mpr hp
        omega
    simp [unitsOf_of_lt p hp, roundUnits, hlog, roundHalfEven_one, h]
  · obtain ⟨e, f, hf, rfl⟩ := exists_exponent_fraction p (by omega)
    have hshift : (2 ^ 52 + f) * 2 ^ e = (2 ^ 52 + f) * (1 * 2 ^ e) := by rw [Nat.one_mul]
    rw [unitsOf_add e f hf, roundUnits, Nat.div_one, log2_significand e f hf, Nat.add_sub_cancel_left,
      hshift, roundHalfEven_mul _ _ (Nat.mul_pos Nat.one_pos (Nat.two_pow_pos e))]
    omega

/-- Rounding the magnitude of a double that is a number gives the double back. -/
theorem ofRatio_magnitude (d : Double) (h : d.isNaN = false) :
    ofRatio d.isNegative d.magnitude 1 = d := by
  have hp : d.pattern ≤ infinityPattern := by simpa [isNaN] using h
  rw [ofRatio, magnitude, roundUnits_unitsOf _ hp, ofPattern_pattern]

end ScriptCore.Double
