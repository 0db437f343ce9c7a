import ScriptCore.Double.Arith
import ScriptCore.Double.Lemmas

/-! Exact results.

Integers below `2 ^ 53` are doubles (`units_ofInt`), and a difference of finite doubles is rounded to zero
only if it is zero (`roundUnits_eq_zero`). So an integer is known by its double, and two finite doubles
differ by less than the smallest magnitude just when they are the same number (`abs_sub_numLt_smallest`). -/
namespace ScriptCore.Double

/-! ### Keys and units -/

theorem unitsOf_eq_zero {p : Nat} : unitsOf p = 0 ↔ p = 0 :=
  ⟨fun h => unitsOf_inj (q := 0) h, fun h => by simp [h, unitsOf]⟩

theorem magnitude_pos_iff {d : Double} : 0 < d.magnitude ↔ d.isZero = false := by
  rw [Nat.pos_iff_ne_zero, ne_eq, magnitude, unitsOf_eq_zero, isZero, decide_eq_false_iff_not]

/-- Keys are equal when units are. -/
theorem key_eq_iff (a b : Double) : a.key = b.key ↔ a.units = b.units := by
  have hpattern : a.magnitude = b.magnitude ↔ a.pattern = b.pattern :=
    ⟨unitsOf_inj, fun h => by rw [magnitude, h, magnitude]⟩
  have hzero : ∀ d : Double, d.magnitude = 0 ↔ d.pattern = 0 := fun _ => unitsOf_eq_zero
  have ha := hzero a
  have hb := hzero b
  unfold key units
  split <;> split <;> omega

/-- Keys are in the order of units. -/
theorem key_lt_iff (a b : Double) : a.key < b.key ↔ a.units < b.units := by
  have hpattern : ∀ c d : Double, c.magnitude < d.magnitude ↔ c.pattern < d.pattern := fun c d =>
    ⟨fun h => Nat.lt_of_not_le fun hle => Nat.not_lt.mpr (unitsOf_le hle) h, unitsOf_lt⟩
  have hzero : ∀ d : Double, d.magnitude = 0 ↔ d.pattern = 0 := fun _ => unitsOf_eq_zero
  have hab := hpattern a b
  have hba := hpattern b a
  have ha := hzero a
  have hb := hzero b
  unfold key units
  split <;> split <;> omega

/-- A double is known by its number and its sign. -/
theorem eq_of_key_eq {a b : Double} (hkey : a.key = b.key) (hsign : a.isNegative = b.isNegative) : a = b := by
  have hpattern : a.pattern = b.pattern := by
    unfold key at hkey
    rw [hsign] at hkey
    split at hkey <;> omega
  rw [← ofPattern_pattern a, ← ofPattern_pattern b, hpattern, hsign]

/-- Only zeros have one number and two signs. -/
theorem isZero_of_key_eq {a b : Double} (hkey : a.key = b.key) (hsign : a.isNegative ≠ b.isNegative) :
    a.isZero = true ∧ b.isZero = true := by
  have hpatterns : a.pattern = 0 ∧ b.pattern = 0 := by
    unfold key at hkey
    cases ha : a.isNegative <;> cases hb : b.isNegative
    · exact absurd (ha.trans hb.symm) hsign
    · rw [ha, hb, if_neg Bool.false_ne_true, if_pos rfl] at hkey
      omega
    · rw [ha, hb, if_neg Bool.false_ne_true, if_pos rfl] at hkey
      omega
    · exact absurd (ha.trans hb.symm) hsign
  exact ⟨decide_eq_true hpatterns.1, decide_eq_true hpatterns.2⟩

theorem isNaN_of_isFinite {d : Double} (hd : d.isFinite = true) : d.isNaN = false := by
  simp only [isFinite, isNaN, decide_eq_true_eq, decide_eq_false_iff_not] at *
  omega

theorem numEq_of_isFinite {a b : Double} (ha : a.isFinite = true) (hb : b.isFinite = true) :
    a.numEq b = (a.key == b.key) := by
  simp [numEq, isNaN_of_isFinite ha, isNaN_of_isFinite hb]

/-! ### Integers -/

theorem one_pos : 0 < one := by
  have hpos := Nat.two_pow_pos 1074
  unfold one
  omega

/-- An integer below `2 ^ 53` has a pattern. Its leading bit is moved to the place of the hidden one. -/
theorem exists_unitsOf_eq {n : Nat} (h : n < 2 ^ 53) : ∃ p, p < infinityPattern ∧ unitsOf p = n * one := by
  by_cases hn : n = 0
  · exact ⟨0, by decide, by simp [hn, unitsOf]⟩
  · obtain ⟨hlow, hhigh⟩ := (Nat.log2_eq_iff hn).mp rfl
    generalize n.log2 = k at hlow hhigh
    have hk : k < 53 := (Nat.pow_lt_pow_iff_right (by decide)).mp (Nat.lt_of_le_of_lt hlow h)
    have hfits : 2 ^ 52 ≤ n * 2 ^ (52 - k) ∧ n * 2 ^ (52 - k) < 2 ^ 53 := by
      have hfrom : 2 ^ k * 2 ^ (52 - k) = 2 ^ 52 := by rw [← Nat.pow_add, Nat.add_sub_cancel' (by omega)]
      have hto : 2 ^ (k + 1) * 2 ^ (52 - k) = 2 ^ 53 := by
        rw [← Nat.pow_add, show k + 1 + (52 - k) = 53 by omega]
      exact ⟨hfrom ▸ Nat.mul_le_mul_right _ hlow, hto ▸ Nat.mul_lt_mul_of_pos_right hhigh (Nat.two_pow_pos _)⟩
    refine ⟨(k + 1022 + 1) * 2 ^ 52 + (n * 2 ^ (52 - k) - 2 ^ 52), ?_, ?_⟩
    · unfold infinityPattern
      omega
    · rw [unitsOf_add _ _ (by omega), Nat.add_sub_cancel' hfits.1, Nat.mul_assoc, ← Nat.pow_add]
      have hexp : 52 - k + (k + 1022) = 1074 := by omega
      rw [hexp, one]

theorem lt_of_le_infinityPattern {p : Nat} (hp : p ≤ infinityPattern) : p < 2 ^ 63 := by
  unfold infinityPattern at hp
  omega

theorem units_ofPattern (negative : Bool) {p : Nat} (hp : p < 2 ^ 63) :
    (ofPattern negative p).units = if negative then -(unitsOf p : Int) else unitsOf p := by
  rw [units, magnitude, pattern_ofPattern _ _ hp, isNegative_ofPattern _ _ hp]

theorem isFinite_ofPattern (negative : Bool) {p : Nat} (hp : p < infinityPattern) :
    (ofPattern negative p).isFinite = true := by
  rw [isFinite, pattern_ofPattern _ _ (lt_of_le_infinityPattern (Nat.le_of_lt hp))]
  exact decide_eq_true hp

/-- The double nearest to a natural number, with a sign that a zero has as well. -/
def ofSigned (negative : Bool) (n : Nat) : Double := ofRatio negative (n * one) 1

theorem ofInt_eq (n : Int) : ofInt n = ofSigned (n < 0) n.natAbs := rfl

section Signed
variable (negative : Bool) {n : Nat} (hn : n < 2 ^ 53)
include hn

/-- Integers are not rounded. -/
theorem exists_ofSigned_eq :
    ∃ p, p < infinityPattern ∧ unitsOf p = n * one ∧ ofSigned negative n = ofPattern negative p := by
  obtain ⟨p, hp, hunits⟩ := exists_unitsOf_eq hn
  exact ⟨p, hp, hunits, by rw [ofSigned, ofRatio, ← hunits, roundUnits_unitsOf p (Nat.le_of_lt hp)]⟩

theorem isFinite_ofSigned : (ofSigned negative n).isFinite = true := by
  obtain ⟨p, hp, -, heq⟩ := exists_ofSigned_eq negative hn
  rw [heq, isFinite_ofPattern _ hp]

theorem units_ofSigned : (ofSigned negative n).units = (if negative then -(n : Int) else n) * one := by
  obtain ⟨p, hp, hunits, heq⟩ := exists_ofSigned_eq negative hn
  rw [heq, units_ofPattern _ (lt_of_le_infinityPattern (Nat.le_of_lt hp)), hunits, Int.natCast_mul]
  split
  · rw [Int.neg_mul]
  · rfl

end Signed

theorem isFinite_ofInt {n : Int} (h : n.natAbs < 2 ^ 53) : (ofInt n).isFinite = true :=
  isFinite_ofSigned _ h

theorem units_ofInt {n : Int} (h : n.natAbs < 2 ^ 53) : (ofInt n).units = n * one := by
  rw [ofInt_eq, units_ofSigned _ h]
  by_cases hneg : n < 0
  · have habs : -(n.natAbs : Int) = n := by omega
    rw [decide_eq_true hneg, if_pos rfl, habs]
  · have habs : (n.natAbs : Int) = n := by omega
    rw [decide_eq_false hneg, if_neg Bool.false_ne_true, habs]

/-- Integers with equal doubles are equal. -/
theorem key_ofInt_inj {m n : Int} (hm : m.natAbs < 2 ^ 53) (hn : n.natAbs < 2 ^ 53) :
    (ofInt m).key = (ofInt n).key ↔ m = n := by
  refine ⟨fun h => ?_, fun h => by rw [h]⟩
  rw [key_eq_iff, units_ofInt hm, units_ofInt hn] at h
  exact Int.eq_of_mul_eq_mul_right (Int.natCast_ne_zero.mpr (Nat.ne_of_gt one_pos)) h

/-- Doubles of integers are in their order. -/
theorem key_ofInt_lt {m n : Int} (hm : m.natAbs < 2 ^ 53) (hn : n.natAbs < 2 ^ 53) :
    (ofInt m).key < (ofInt n).key ↔ m < n := by
  rw [key_lt_iff, units_ofInt hm, units_ofInt hn]
  exact Int.mul_lt_mul_right (Int.natCast_pos.mpr one_pos)

/-! ### Differences -/

theorem roundUnits_eq_zero {n : Nat} : roundUnits n 1 = 0 ↔ n = 0 := by
  constructor
  · intro h
    have hrounded : (n.log2 - 52) * 2 ^ 52 + roundHalfEven n (1 * 2 ^ (n.log2 - 52)) = 0 := by
      have hinf : infinityPattern ≠ 0 := by decide
      rw [roundUnits, Nat.div_one] at h
      omega
    have hshift : n.log2 - 52 = 0 := by omega
    rw [hshift] at hrounded
    simpa [roundHalfEven_one] using hrounded
  · rintro rfl
    rfl

theorem units_neg (d : Double) : d.neg.units = -d.units := by
  rw [units, units, magnitude, magnitude, neg, pattern_ofPattern _ _ d.pattern_lt,
    isNegative_ofPattern _ _ d.pattern_lt]
  cases d.isNegative <;> simp

theorem isFinite_neg (d : Double) : d.neg.isFinite = d.isFinite := by
  rw [isFinite, isFinite, neg, pattern_ofPattern _ _ d.pattern_lt]

theorem isInfinite_of_isFinite {d : Double} (hd : d.isFinite = true) : d.isInfinite = false := by
  simp only [isFinite, isInfinite, decide_eq_true_eq, decide_eq_false_iff_not] at *
  omega

/-- The magnitude of a difference is rounded once. -/
theorem pattern_abs_sub {a b : Double} (ha : a.isFinite = true) (hb : b.isFinite = true) :
    (a.sub b).abs.pattern = roundUnits (a.units - b.units).natAbs 1 := by
  have hb' : b.neg.isFinite = true := (isFinite_neg b).trans hb
  have hle : ∀ n, roundUnits n 1 < 2 ^ 63 := fun n => lt_of_le_infinityPattern (Nat.min_le_left _ _)
  simp only [sub, add, isNaN_of_isFinite ha, isNaN_of_isFinite hb', isInfinite_of_isFinite ha,
    isInfinite_of_isFinite hb', Bool.or_self, Bool.false_eq_true, if_false, units_neg, ← Int.sub_eq_add_neg]
  rw [abs, ofRatio, pattern_ofPattern _ _ (hle _), pattern_ofPattern _ _ (hle _)]

theorem pattern_abs (d : Double) : d.abs.pattern = d.pattern := pattern_ofPattern _ _ d.pattern_lt

theorem key_abs (d : Double) : d.abs.key = d.pattern := by
  rw [key, pattern_abs, abs, isNegative_ofPattern _ _ d.pattern_lt, if_neg Bool.false_ne_true]

/-- Only zeros are below the smallest magnitude. -/
theorem abs_numLt_smallest {d : Double} (hd : d.isNaN = false) : d.abs.numLt smallest = d.isZero := by
  have hnumber : d.abs.isNaN = false := by rwa [isNaN, pattern_abs]
  have hsmallest : smallest.isNaN = false ∧ smallest.key = 1 := by decide
  have hzero : (d.pattern : Int) < 1 ↔ d.pattern = 0 := by omega
  rw [numLt, hnumber, hsmallest.1, key_abs, hsmallest.2, isZero, decide_eq_decide.mpr hzero]
  rfl

/-- Finite doubles that are not the same number differ by the smallest magnitude at least. -/
theorem abs_sub_numLt_smallest {a b : Double} (ha : a.isFinite = true) (hb : b.isFinite = true) :
    (a.sub b).abs.numLt smallest = a.numEq b := by
  have hpattern : (a.sub b).pattern = roundUnits (a.units - b.units).natAbs 1 :=
    (pattern_abs _).symm.trans (pattern_abs_sub ha hb)
  have hnumber : (a.sub b).isNaN = false := by
    rw [isNaN, hpattern]
    exact decide_eq_false (Nat.not_lt.mpr (Nat.min_le_left _ _))
  have hzero : (a.units - b.units).natAbs = 0 ↔ a.units = b.units := by omega
  rw [abs_numLt_smallest hnumber, numEq_of_isFinite ha hb, isZero, hpattern, Bool.eq_iff_iff, decide_eq_true_iff,
    beq_iff_eq, key_eq_iff, roundUnits_eq_zero, hzero]

end ScriptCore.Double
