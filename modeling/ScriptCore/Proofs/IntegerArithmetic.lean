import ScriptCore.Double.Nearest
import ScriptCore.Double.Halfway
import ScriptCore.Proofs.Representations

/-! Arithmetic on integers of 32 bits.

Operations on two integers of 32 bits are those on all integers, and none of them wraps. Sums and differences are
exact, as doubles when they have more than 32 bits (`IsExactly`). Products and quotients stay integers where they have
32 bits, and become the nearest doubles where they have not (`IsNearest`): they are far from both ends of the range of
doubles, so that their rounding is neither infinite nor zero (`roundUnits_bounds`). A zero keeps the sign that the
operands give it, which takes a double. -/
namespace ScriptCore

/-- The integer has 32 bits. -/
def FitsInt32 (n : ℤ) : Prop := -2 ^ 31 ≤ n ∧ n < 2 ^ 31

instance : DecidablePred FitsInt32 := fun n => inferInstanceAs (Decidable (-2 ^ 31 ≤ n ∧ n < 2 ^ 31))

section Fits
variable {n : ℤ}

theorem int32Of?_of_fits (hn : FitsInt32 n) : int32Of? n = some (.int32 (Int32.ofInt n)) := if_pos hn

theorem int32Of?_of_not_fits (hn : ¬ FitsInt32 n) : int32Of? n = none := if_neg hn

end Fits

/-! ### Results -/

namespace Value

/-- The value is the integer, in 32 bits. -/
def IsInt32 (v : Value) (n : ℤ) : Prop := ∃ k : Int32, k.toInt = n ∧ v = int32 k

/-- The value is the integer, in 32 bits if that is enough and as a double otherwise. -/
def IsExactly (v : Value) (n : ℤ) : Prop :=
  if FitsInt32 n then v.IsInt32 n else ∃ d : FiniteDouble, v = double d ∧ d.val.toRat = n

/-- The value is a double, the one that is nearest to the number. -/
def IsNearest (v : Value) (x : ℚ) : Prop := ∃ d : FiniteDouble, v = double d ∧ ∀ e : Double, e.IsNearest x ↔ e = d.val

/-- The product of two integers. A zero is negative if a factor is. -/
def IsProduct (v : Value) (x y : ℤ) : Prop :=
  if x * y = 0 ∧ (x < 0 ∨ y < 0) then v = negativeZero
  else if FitsInt32 (x * y) then v.IsInt32 (x * y)
  else v.IsNearest (x * y)

/-- The quotient of two integers, the second of which is not zero. A zero is negative if the divisor is. -/
def IsQuotient (v : Value) (x y : ℤ) : Prop :=
  if x = 0 ∧ y < 0 then v = negativeZero
  else if y ∣ x ∧ FitsInt32 (x / y) then v.IsInt32 (x / y)
  else v.IsNearest (x / y)

/-- The remainder of two integers, the second of which is not zero. It has the sign of the dividend, also when it is
zero. -/
def IsRemainder (v : Value) (x y : ℤ) : Prop :=
  ∃ r : ℤ, |r| < |y| ∧ y ∣ x - r ∧ (r ≠ 0 → r.sign = x.sign) ∧
    if r = 0 ∧ x < 0 then v = negativeZero else v.IsInt32 r

/-- What a division of an integer by zero gives: an infinity on its side of zero, and nothing for zero itself. -/
def byZero (x : ℤ) : Value := if x = 0 then nan else infinity (if x < 0 then .negative else .positive)

theorem isInt32_ofInt {n : ℤ} (hn : FitsInt32 n) : (int32 (Int32.ofInt n)).IsInt32 n :=
  ⟨Int32.ofInt n, Int32.toInt_ofInt_of_le hn.1 hn.2, rfl⟩

theorem isNearest_ofDouble {d : Double} {x : ℚ} (hd : d.IsNearest x) (hzero : d.isZero = false) :
    (ofDouble d).IsNearest x :=
  ⟨⟨d, hd.isFinite⟩, ofDouble_of_isFinite hd.isFinite,
    fun _ => ⟨fun he => (hd.unique he hzero).symm, fun heq => heq ▸ hd⟩⟩

theorem isExactly_getD {n : ℤ} (hn : n.natAbs < 2 ^ 53) :
    ((int32Of? n).getD (ofDouble (Double.ofInt n))).IsExactly n := by
  unfold IsExactly
  split
  · rename_i hfits
    rw [int32Of?_of_fits hfits, Option.getD_some]
    exact isInt32_ofInt hfits
  · rename_i hfits
    rw [int32Of?_of_not_fits hfits, Option.getD_none]
    exact ⟨⟨_, Double.isFinite_ofInt hn⟩, ofDouble_of_isFinite _, Double.toRat_of_units (Double.units_ofInt hn)⟩

end Value

/-! ### Rounding far from the ends of the range -/

namespace Double

/-- The pattern of a large power of two. -/
theorem unitsOf_two_pow_mul_one (k : ℕ) : unitsOf ((k + 1076) * 2 ^ 52) = 2 ^ (k + 53) * one := by
  rw [show k + 1076 = k + 1074 + 2 by omega, unitsOf_powerOfTwo, ← two_pow_mul_one, ← Nat.mul_assoc, ← Nat.pow_add,
    Nat.add_comm]

/-- What lies between one unit and `2 ^ 62` is rounded to a finite number that is not zero. -/
theorem roundUnits_bounds {num den : ℕ} (hden : 0 < den) (hlow : den ≤ num) (hhigh : num ≤ 2 ^ 62 * one * den) :
    0 < roundUnits num den ∧ roundUnits num den < infinityPattern := by
  have hpos : 1 ≤ roundUnits num den :=
    le_roundUnits_of_le hden (by decide) (by rwa [show unitsOf 1 = 1 from rfl, Nat.one_mul])
  have hpower : unitsOf (1085 * 2 ^ 52) = 2 ^ 62 * one := by
    rw [show 1085 = 9 + 1076 from rfl, show 62 = 9 + 53 from rfl, unitsOf_two_pow_mul_one]
  have hle : roundUnits num den ≤ 1085 * 2 ^ 52 := roundUnits_le_of_le hden (by decide) (by rwa [hpower])
  exact ⟨hpos, Nat.lt_of_le_of_lt hle (by decide)⟩

theorem isZero_ofRatio {negative : Bool} {num den : ℕ} (hround : 0 < roundUnits num den) :
    (ofRatio negative num den).isZero = false := by
  rw [isZero, pattern_ofRatio]
  exact decide_eq_false (Nat.ne_of_gt hround)

theorem isFinite_ofRatio {negative : Bool} {num den : ℕ} (hround : roundUnits num den < infinityPattern) :
    (ofRatio negative num den).isFinite = true := by
  rw [isFinite, pattern_ofRatio]
  exact decide_eq_true hround

section Integers
variable {m n : ℤ} (hm : m.natAbs ≤ 2 ^ 31) (hn : n.natAbs ≤ 2 ^ 31)
include hm hn

theorem isNearest_mul_ofInt (hzero : m * n ≠ 0) :
    ((ofInt m).mul (ofInt n)).IsNearest (m * n) ∧ ((ofInt m).mul (ofInt n)).isZero = false := by
  have hmul := mul_ofInt (m := m) (n := n) (by omega) (by omega)
  have hlow : 1 ≤ (m * n).natAbs * one := Nat.mul_pos (Int.natAbs_pos.mpr hzero) one_pos
  have hhigh : (m * n).natAbs * one ≤ 2 ^ 62 * one * 1 := by
    have hproduct : m.natAbs * n.natAbs ≤ 2 ^ 31 * 2 ^ 31 := Nat.mul_le_mul hm hn
    rw [Nat.mul_one, Int.natAbs_mul]
    exact Nat.mul_le_mul_right one (by omega)
  obtain ⟨hpos, hlt⟩ := roundUnits_bounds Nat.one_pos hlow hhigh
  have hfinite : ((ofInt m).mul (ofInt n)).isFinite = true := hmul ▸ isFinite_ofRatio hlt
  have hnearest := isNearest_mul (isFinite_ofInt (by omega)) (isFinite_ofInt (by omega)) hfinite
  rw [toRat_of_units (units_ofInt (by omega)), toRat_of_units (units_ofInt (by omega))] at hnearest
  exact ⟨hnearest, hmul ▸ isZero_ofRatio hpos⟩

theorem isNearest_div_ofInt (hmzero : m ≠ 0) (hnzero : n ≠ 0) :
    ((ofInt m).div (ofInt n)).IsNearest (m / n) ∧ ((ofInt m).div (ofInt n)).isZero = false := by
  have hm53 : m.natAbs < 2 ^ 53 := by omega
  have hn53 : n.natAbs < 2 ^ 53 := by omega
  have hdivisor : (ofInt n).isZero = false := by rw [isZero_ofInt hn53, decide_eq_false hnzero]
  have hdiv := div_of_isFinite (isFinite_ofInt hm53) (isFinite_ofInt hn53) hdivisor
  have hmpos := Int.natAbs_pos.mpr hmzero
  have hnpos := Int.natAbs_pos.mpr hnzero
  have hden : 0 < n.natAbs * one := Nat.mul_pos hnpos one_pos
  have hlow : n.natAbs * one ≤ m.natAbs * one * one := by
    have hone := two_pow_le_one
    refine Nat.mul_le_mul_right one (Nat.le_trans (by omega : n.natAbs ≤ one) ?_)
    exact Nat.le_mul_of_pos_left one hmpos
  have hhigh : m.natAbs * one * one ≤ 2 ^ 62 * one * (n.natAbs * one) := by
    rw [Nat.mul_comm n.natAbs one, ← Nat.mul_assoc, Nat.mul_right_comm _ _ n.natAbs, Nat.mul_right_comm _ _ n.natAbs]
    exact Nat.mul_le_mul_right one (Nat.mul_le_mul_right one (by omega))
  obtain ⟨hpos, hlt⟩ := roundUnits_bounds hden hlow hhigh
  rw [← magnitude_ofInt hn53, ← magnitude_ofInt hm53] at hpos hlt
  have hnearest := isNearest_div (isFinite_ofInt hm53) (isFinite_ofInt hn53) hdivisor (hdiv ▸ isFinite_ofRatio hlt)
  rw [toRat_of_units (units_ofInt hm53), toRat_of_units (units_ofInt hn53)] at hnearest
  exact ⟨hnearest, hdiv ▸ isZero_ofRatio hpos⟩

end Integers
end Double

/-! ### Operations -/

theorem byZero_of_isZero {b : Value} (hb : b.isZero = true) (a : Value) :
    divNumbers a b = divideByZero a.toDouble ∧ remNumbers a b = divideByZero a.toDouble :=
  ⟨if_pos hb, if_pos hb⟩

section Operations
variable (a b : Int32)

theorem natAbs_toInt_le : a.toInt.natAbs ≤ 2 ^ 31 := by
  have hlow := a.le_toInt
  have hhigh := a.toInt_lt
  omega

theorem isExactly_addNumbers : (addNumbers (.int32 a) (.int32 b)).IsExactly (a.toInt + b.toInt) := by
  have ha := natAbs_toInt_le a
  have hb := natAbs_toInt_le b
  have hsum := Value.isExactly_getD (n := a.toInt + b.toInt) (by omega)
  rwa [← Double.add_ofInt (by omega) (by omega)] at hsum

theorem isExactly_subNumbers : (subNumbers (.int32 a) (.int32 b)).IsExactly (a.toInt - b.toInt) := by
  have ha := natAbs_toInt_le a
  have hb := natAbs_toInt_le b
  have hdifference := Value.isExactly_getD (n := a.toInt - b.toInt) (by omega)
  rwa [← Double.sub_ofInt (by omega) (by omega)] at hdifference

theorem isProduct_mulNumbers : (mulNumbers (.int32 a) (.int32 b)).IsProduct a.toInt b.toInt := by
  unfold Value.IsProduct mulNumbers
  by_cases hfits : FitsInt32 (a.toInt * b.toInt)
  · simp only [int32Of?_of_fits hfits, if_pos hfits]
    split
    · rfl
    · exact Value.isInt32_ofInt hfits
  · -- A zero has 32 bits, so it is not rounded.
    have hzero : a.toInt * b.toInt ≠ 0 := fun hzero => hfits (hzero ▸ by decide)
    obtain ⟨hnearest, hnonzero⟩ := Double.isNearest_mul_ofInt (natAbs_toInt_le a) (natAbs_toInt_le b) hzero
    simp only [int32Of?_of_not_fits hfits, if_neg hfits]
    rw [if_neg fun hboth => hzero hboth.1]
    exact Value.isNearest_ofDouble hnearest hnonzero

theorem isZero_int32 : (Value.int32 b).isZero = decide (b.toInt = 0) := by
  rw [Value.isZero_eq, Value.toDouble_int32, Double.isZero_ofInt (natAbs_toInt_lt b)]

theorem divideByZero_int32 : divideByZero (Value.int32 a).toDouble = Value.byZero a.toInt := by
  have ha := natAbs_toInt_lt a
  rw [Value.toDouble_int32, divideByZero, Double.isNaN_of_isFinite (Double.isFinite_ofInt ha), Double.isZero_ofInt ha,
    Bool.false_or, Sign.of, Double.isNegative_ofInt ha, Value.byZero]
  simp only [decide_eq_true_eq]

variable {b} (hb : b.toInt ≠ 0)
include hb

theorem isQuotient_divNumbers : (divNumbers (.int32 a) (.int32 b)).IsQuotient a.toInt b.toInt := by
  have hdivisor : (Value.int32 b).isZero = false := by rw [isZero_int32, decide_eq_false hb]
  unfold Value.IsQuotient divNumbers
  rw [hdivisor, if_neg Bool.false_ne_true]
  dsimp only
  by_cases hnegative : a.toInt = 0 ∧ b.toInt < 0
  · rw [if_pos hnegative, if_pos hnegative]
  rw [if_neg hnegative, if_neg hnegative]
  by_cases hexact : b.toInt ∣ a.toInt ∧ FitsInt32 (a.toInt / b.toInt)
  · have hquotient := Int.tdiv_eq_ediv_of_dvd hexact.1
    rw [if_pos hexact, if_pos (Int.tmod_eq_zero_of_dvd hexact.1), hquotient, int32Of?_of_fits hexact.2,
      Option.getD_some]
    exact Value.isInt32_ofInt hexact.2
  · have hnone : (if a.toInt.tmod b.toInt = 0 then int32Of? (a.toInt.tdiv b.toInt) else none) = none := by
      split
      · rename_i hrest
        have hdvd := Int.dvd_of_tmod_eq_zero hrest
        rw [Int.tdiv_eq_ediv_of_dvd hdvd]
        exact int32Of?_of_not_fits fun hfits => hexact ⟨hdvd, hfits⟩
      · rfl
    -- A zero is a multiple, so it is not rounded.
    have hzero : a.toInt ≠ 0 := fun hzero => hexact (by rw [hzero, Int.zero_ediv]; exact ⟨Int.dvd_zero _, by decide⟩)
    obtain ⟨hnearest, hnonzero⟩ := Double.isNearest_div_ofInt (natAbs_toInt_le a) (natAbs_toInt_le b) hzero hb
    rw [if_neg hexact, hnone, Option.getD_none]
    exact Value.isNearest_ofDouble hnearest hnonzero

theorem isRemainder_remNumbers : (remNumbers (.int32 a) (.int32 b)).IsRemainder a.toInt b.toInt := by
  have hdivisor : (Value.int32 b).isZero = false := by rw [isZero_int32, decide_eq_false hb]
  have hsmall : (a.toInt.tmod b.toInt).natAbs < b.toInt.natAbs := by
    rw [Int.natAbs_tmod]
    exact Nat.mod_lt _ (Int.natAbs_pos.mpr hb)
  obtain ⟨hnonneg, hnonpos⟩ := tmod_sign a.toInt b.toInt
  unfold remNumbers
  rw [hdivisor, if_neg Bool.false_ne_true]
  dsimp only
  refine ⟨a.toInt.tmod b.toInt, ?_, ?_, fun hrest => ?_, ?_⟩
  · rw [Int.abs_eq_natAbs, Int.abs_eq_natAbs]
    exact_mod_cast hsmall
  · exact ⟨a.toInt.tdiv b.toInt, by have hsplit := Int.mul_tdiv_add_tmod a.toInt b.toInt; omega⟩
  · rcases Int.lt_trichotomy a.toInt 0 with hneg | hzero | hpos
    · rw [Int.sign_eq_neg_one_of_neg hneg, Int.sign_eq_neg_one_of_neg (by omega)]
    · exact absurd (by rw [hzero, Int.zero_tmod]) hrest
    · rw [Int.sign_eq_one_of_pos hpos, Int.sign_eq_one_of_pos (by omega)]
  · split
    · rfl
    · exact ⟨_, toInt_ofInt_tmod a b, rfl⟩

end Operations

/-- Arithmetic on integers of 32 bits is that of the integers. It neither wraps nor fails. -/
theorem int32_arithmetic (a b : Int32) :
    (addNumbers (.int32 a) (.int32 b)).IsExactly (a.toInt + b.toInt) ∧
      (subNumbers (.int32 a) (.int32 b)).IsExactly (a.toInt - b.toInt) ∧
      (mulNumbers (.int32 a) (.int32 b)).IsProduct a.toInt b.toInt ∧
      if b.toInt = 0 then
        divNumbers (.int32 a) (.int32 b) = Value.byZero a.toInt ∧
          remNumbers (.int32 a) (.int32 b) = Value.byZero a.toInt
      else
        (divNumbers (.int32 a) (.int32 b)).IsQuotient a.toInt b.toInt ∧
          (remNumbers (.int32 a) (.int32 b)).IsRemainder a.toInt b.toInt := by
  refine ⟨isExactly_addNumbers a b, isExactly_subNumbers a b, isProduct_mulNumbers a b, ?_⟩
  split
  · rename_i hb
    have hdivisor : (Value.int32 b).isZero = true := by rw [isZero_int32, decide_eq_true hb]
    rw [← divideByZero_int32]
    exact byZero_of_isZero hdivisor _
  · rename_i hb
    exact ⟨isQuotient_divNumbers a hb, isRemainder_remNumbers a hb⟩

end ScriptCore
