import ScriptCore.Double.Exact

/-! Arithmetic of integers as doubles.

An integer is a sign and a natural number of ones (`ofSigned`), and so are the results of arithmetic on
integers. Sums and differences are the doubles of the integers that they should be, products, remainders and
quotients without a rest too, but for the sign of a zero, which no integer holds: the product of a negative
number and zero is a negative zero, and so is the remainder of a negative multiple. -/
namespace ScriptCore.Double

theorem ofSigned_zero (negative : Bool) : ofSigned negative 0 = zero negative := by
  rw [ofSigned, Nat.zero_mul]
  rfl

theorem unitsOf_powerOfTwo (e : Nat) : unitsOf ((e + 2) * 2 ^ 52) = 2 ^ 53 * 2 ^ e := by
  have hpow : 2 ^ (e + 1) = 2 * 2 ^ e := Nat.pow_add_one'
  have hunits := unitsOf_add (e + 1) 0 (by decide)
  rw [hpow, Nat.add_zero, Nat.add_zero, ← Nat.mul_assoc] at hunits
  exact hunits

/-- Only the quotient counts for its rounding. -/
theorem roundUnits_scale (num den : Nat) {c : Nat} (hc : 0 < c) :
    roundUnits (num * c) (den * c) = roundUnits num den := by
  simp only [roundUnits, Nat.mul_div_mul_right _ _ hc, Nat.mul_right_comm den c, roundHalfEven_scale _ _ _ hc]

theorem ofRatio_one (negative : Bool) (n : Nat) :
    ofRatio negative (n * one * one) one = ofSigned negative n := by
  have hscale := roundUnits_scale (n * one) 1 one_pos
  rw [Nat.one_mul] at hscale
  rw [ofRatio, hscale, ofSigned, ofRatio]

/-! ### Whole numbers -/

theorem natAbs_units (d : Double) : d.units.natAbs = d.magnitude := by
  unfold units
  split <;> omega

theorem isNegative_iff {d : Double} (hd : d.units ≠ 0) : d.isNegative = true ↔ d.units < 0 := by
  unfold units at hd ⊢
  split at hd <;> rename_i hneg
  · rw [if_pos hneg, iff_true_left hneg]
    omega
  · rw [if_neg hneg, iff_false_left hneg]
    omega

theorem units_lt_zero_iff {d : Double} : d.units < 0 ↔ d.isNegative = true ∧ d.magnitude ≠ 0 := by
  unfold units
  cases d.isNegative with
  | false =>
    rw [if_neg Bool.false_ne_true]
    exact iff_of_false (by omega) fun hboth => Bool.false_ne_true hboth.1
  | true =>
    rw [if_pos rfl, and_iff_right rfl]
    omega

section Whole
variable {d : Double} {k : Int} (hunits : d.units = k * one)
include hunits

theorem magnitude_of_units : d.magnitude = k.natAbs * one := by
  rw [← natAbs_units, hunits, Int.natAbs_mul, Int.natAbs_natCast]

theorem isZero_of_units : d.isZero = decide (k = 0) := by
  have hmagnitude := magnitude_of_units hunits
  have hpos := one_pos
  rw [magnitude] at hmagnitude
  rw [isZero, decide_eq_decide, ← unitsOf_eq_zero, hmagnitude, Nat.mul_eq_zero]
  omega

theorem isNegative_of_units (hk : k ≠ 0) : d.isNegative = decide (k < 0) := by
  have hone : (0 : Int) < one := Int.natCast_pos.mpr one_pos
  have hside : k * one < 0 ↔ k < 0 := by
    have hlt := Int.mul_lt_mul_right (b := k) (c := 0) (a := one) hone
    rwa [Int.zero_mul] at hlt
  have hnonzero : d.units ≠ 0 := hunits ▸ Int.mul_ne_zero hk (Int.ne_of_gt hone)
  rw [← hunits] at hside
  rw [Bool.eq_iff_iff, isNegative_iff hnonzero, hside, decide_eq_true_iff]

end Whole

/-! ### Finite operands -/

section Finite
variable {a b : Double} (ha : a.isFinite = true) (hb : b.isFinite = true)
include ha hb

theorem mul_of_isFinite :
    a.mul b = ofRatio (a.isNegative != b.isNegative) (a.magnitude * b.magnitude) one := by
  simp only [mul, isNaN_of_isFinite ha, isNaN_of_isFinite hb, isInfinite_of_isFinite ha,
    isInfinite_of_isFinite hb, Bool.or_self, Bool.false_eq_true, if_false]

theorem div_of_isFinite (hzero : b.isZero = false) :
    a.div b = ofRatio (a.isNegative != b.isNegative) (a.magnitude * one) b.magnitude := by
  simp only [div, isNaN_of_isFinite ha, isNaN_of_isFinite hb, isInfinite_of_isFinite ha,
    isInfinite_of_isFinite hb, hzero, Bool.or_self, Bool.false_eq_true, if_false]

theorem rem_of_isFinite (hzero : b.isZero = false) :
    a.rem b = ofRatio a.isNegative (a.magnitude % b.magnitude) 1 := by
  simp only [rem, isNaN_of_isFinite ha, isNaN_of_isFinite hb, isInfinite_of_isFinite ha,
    isInfinite_of_isFinite hb, hzero, Bool.or_self, Bool.false_eq_true, if_false]

theorem add_of_isFinite : a.add b = ofRatio
    (if a.units + b.units = 0 then a.isNegative && b.isNegative else decide (a.units + b.units < 0))
    (a.units + b.units).natAbs 1 := by
  simp only [add, isNaN_of_isFinite ha, isNaN_of_isFinite hb, isInfinite_of_isFinite ha,
    isInfinite_of_isFinite hb, Bool.or_self, Bool.false_eq_true, if_false]

/-- A sum that is a whole number is the double of that number, unless it is a negative zero. -/
theorem add_of_units {k : Int} (hsum : a.units + b.units = k * one)
    (hzero : k = 0 → (a.isNegative && b.isNegative) = false) : a.add b = ofInt k := by
  have hpos := one_pos
  have hsign : (if a.units + b.units = 0 then a.isNegative && b.isNegative
      else decide (a.units + b.units < 0)) = decide (k < 0) := by
    rw [hsum]
    by_cases hk : k = 0
    · rw [hk, Int.zero_mul, if_pos rfl, hzero hk]
      rfl
    · have hnonzero : k * (one : Int) ≠ 0 := Int.mul_ne_zero hk (by omega)
      have hneg := Int.mul_lt_mul_right (b := k) (c := 0) (a := one) (by omega)
      rw [Int.zero_mul] at hneg
      rw [if_neg hnonzero, decide_eq_decide.mpr hneg]
  rw [add_of_isFinite ha hb, hsign, hsum, Int.natAbs_mul, Int.natAbs_natCast, ofInt]

end Finite

/-! ### Integers -/

section Integers
variable {m n : Int} (hm : m.natAbs < 2 ^ 53) (hn : n.natAbs < 2 ^ 53)
include hm

theorem isNegative_ofInt : (ofInt m).isNegative = decide (m < 0) := by
  obtain ⟨p, hp, -, heq⟩ := exists_ofSigned_eq (m < 0) hm
  rw [ofInt_eq, heq, isNegative_ofPattern _ _ (lt_of_le_infinityPattern (Nat.le_of_lt hp))]

theorem magnitude_ofInt : (ofInt m).magnitude = m.natAbs * one := magnitude_of_units (units_ofInt hm)

theorem isZero_ofInt : (ofInt m).isZero = decide (m = 0) := isZero_of_units (units_ofInt hm)

/-- Integers are far below the end of the range. -/
theorem pattern_ofInt_lt : (ofInt m).pattern < 1076 * 2 ^ 52 := by
  refine Nat.lt_of_not_le fun hle => ?_
  have hunits := unitsOf_le hle
  rw [← magnitude, magnitude_ofInt hm, unitsOf_powerOfTwo 1074, ← one] at hunits
  exact Nat.not_lt.mpr hunits (Nat.mul_lt_mul_of_pos_right hm one_pos)

/-- So their keys lie between those of the largest double and of its negative. -/
theorem between_largest_ofInt :
    largest.numLe (ofInt m) = false ∧ (ofInt m).numLe largest.neg = false := by
  have hlt := pattern_ofInt_lt hm
  have hlargest : largest.key = 0x7fefffffffffffff := by decide
  have hlowest : largest.neg.key = -0x7fefffffffffffff := by decide
  have hkey : -(ofInt m).pattern ≤ (ofInt m).key ∧ (ofInt m).key ≤ (ofInt m).pattern := by
    unfold key
    split <;> omega
  constructor
  · rw [numLe, hlargest, decide_eq_false (by omega), Bool.and_false]
  · rw [numLe, hlowest, decide_eq_false (by omega), Bool.and_false]

include hn

theorem add_ofInt : (ofInt m).add (ofInt n) = ofInt (m + n) := by
  refine add_of_units (isFinite_ofInt hm) (isFinite_ofInt hn) ?_ fun hzero => ?_
  · rw [units_ofInt hm, units_ofInt hn, Int.add_mul]
  · rw [isNegative_ofInt hm, isNegative_ofInt hn, Bool.and_eq_false_iff, decide_eq_false_iff_not,
      decide_eq_false_iff_not]
    omega

theorem sub_ofInt : (ofInt m).sub (ofInt n) = ofInt (m - n) := by
  refine add_of_units (isFinite_ofInt hm) ((isFinite_neg _).trans (isFinite_ofInt hn)) ?_ fun hzero => ?_
  · rw [units_neg, units_ofInt hm, units_ofInt hn, Int.sub_mul, Int.sub_eq_add_neg]
  · obtain rfl : m = n := by omega
    rw [neg, isNegative_ofPattern _ _ (pattern_lt _), isNegative_ofInt hm, Bool.and_not_self]

theorem mul_ofInt :
    (ofInt m).mul (ofInt n) = ofSigned (decide (m < 0) != decide (n < 0)) (m * n).natAbs := by
  have hproduct : m.natAbs * one * (n.natAbs * one) = (m * n).natAbs * one * one := by
    generalize one = unit
    rw [Int.natAbs_mul]
    ac_rfl
  rw [mul_of_isFinite (isFinite_ofInt hm) (isFinite_ofInt hn), isNegative_ofInt hm, isNegative_ofInt hn,
    magnitude_ofInt hm, magnitude_ofInt hn, hproduct, ofRatio_one]

theorem div_ofInt (hzero : n ≠ 0) (hrest : m.tmod n = 0) :
    (ofInt m).div (ofInt n) = ofSigned (decide (m < 0) != decide (n < 0)) (m.tdiv n).natAbs := by
  have hdivisor : (ofInt n).isZero = false := by rw [isZero_ofInt hn, decide_eq_false hzero]
  have hdividend : m.natAbs * one * one = (m.tdiv n).natAbs * one * (n.natAbs * one) := by
    have hmul := Int.tdiv_mul_add_tmod m n
    rw [hrest, Int.add_zero] at hmul
    generalize one = unit
    rw [← congrArg Int.natAbs hmul, Int.natAbs_mul]
    ac_rfl
  have hscale := roundUnits_scale ((m.tdiv n).natAbs * one) 1 (Nat.mul_pos (Int.natAbs_pos.mpr hzero) one_pos)
  rw [Nat.one_mul] at hscale
  rw [div_of_isFinite (isFinite_ofInt hm) (isFinite_ofInt hn) hdivisor, isNegative_ofInt hm,
    isNegative_ofInt hn, magnitude_ofInt hm, magnitude_ofInt hn, hdividend, ofRatio, hscale, ofSigned, ofRatio]

theorem rem_ofInt (hzero : n ≠ 0) : (ofInt m).rem (ofInt n) = ofSigned (m < 0) (m.tmod n).natAbs := by
  have hdivisor : (ofInt n).isZero = false := by rw [isZero_ofInt hn, decide_eq_false hzero]
  rw [rem_of_isFinite (isFinite_ofInt hm) (isFinite_ofInt hn) hdivisor, isNegative_ofInt hm,
    magnitude_ofInt hm, magnitude_ofInt hn, Nat.mul_mod_mul_right, Int.natAbs_tmod, ofSigned]

end Integers
end ScriptCore.Double
