import ScriptCore.Proofs.RoundTrip

/-! Texts of finite numbers.

Most doubles lose digits when they are written, so what is read back is another double. It is still not zero,
because every layout keeps three quarters of the number at least (`isZero_reread`). It is finite too,
as long as the number is below `10 ^ 308`, since a power of ten is not rounded away; above, the third largest
double loses digits and the two larger ones gain some, so those are read back as infinity
(`isFinite_reread`). -/
namespace ScriptCore

open Heap

namespace Double

/-! ### What is written is not zero -/

section Written
variable {d : Double} (hzero : d.isZero = false)
include hzero

/-- Every layout goes down to a digit that the number is twice at least. -/
theorem two_steps_le : 2 * (one * 10 ^ d.lastStep.toNat) ≤ d.magnitude * 10 ^ (-d.lastStep).toNat := by
  have hgeneral : ∀ step, step < Decimal.leadingExponent d.magnitude one →
      2 * (one * 10 ^ step.toNat) ≤ d.magnitude * 10 ^ (-step).toNat := fun step hstep => by
    have hten := Decimal.ten_mul_le_of_lt_leadingExponent (magnitude_pos_iff.mpr hzero) one_pos hstep
    omega
  have hexponent := d.generalExponent_cases
  unfold lastStep
  split
  · rename_i hlong
    have hlow : powerOfTen 16 ≤ d.magnitude := of_decide_eq_true (Bool.and_eq_true_iff.mp hlong).1
    have hpower : 2 * one ≤ powerOfTen 16 := Nat.mul_le_mul_right one (by decide)
    rw [Int.neg_zero, Int.toNat_zero, Nat.pow_zero, Nat.mul_one, Nat.mul_one]
    exact Nat.le_trans hpower hlow
  · split
    · rename_i hsmall
      have hlow : smallFractionLow.magnitude ≤ d.magnitude := of_decide_eq_true (Bool.and_eq_true_iff.mp hsmall).1
      have hpower : 2 * one ≤ smallFractionLow.magnitude * 10 ^ 10 := by decide +kernel
      rw [show (-10 : Int).toNat = 0 from rfl, show (-(-10) : Int).toNat = 10 from rfl, Nat.pow_zero, Nat.mul_one]
      exact Nat.le_trans hpower (Nat.mul_le_mul_right _ hlow)
    · split
      · exact hgeneral _ (by omega)
      · exact hgeneral _ (by omega)

/-- So what the digits stand for is three quarters of the number at least, which is not zero. -/
theorem isZero_reread : d.reread.isZero = false := by
  have hone : roundUnits 3 4 = 1 := by decide
  have hunit : 3 * 10 ^ (-d.lastStep).toNat ≤ 3 * (d.magnitude * 10 ^ (-d.lastStep).toNat) :=
    Nat.mul_le_mul_left _ (Nat.le_mul_of_pos_left _ (magnitude_pos_iff.mpr hzero))
  have hrounded := roundUnits_mono (by decide : 0 < 4) (Decimal.ten_pow_pos (-d.lastStep).toNat)
    (Nat.le_trans hunit (Decimal.three_mul_le_atStep one_pos (two_steps_le hzero)))
  rw [hone] at hrounded
  rw [isZero, reread, ofDecimal_eq, pattern_ofRatio]
  exact decide_eq_false (Nat.ne_of_gt hrounded)

end Written

/-! ### What is written is finite but for the two largest numbers -/

/-- Up to a power of ten no digits stand for more than that power. -/
theorem isFinite_reread_of_le {d : Double} (hzero : d.isZero = false) {k : Nat} (hd : d.magnitude ≤ 10 ^ k * one)
    (hfinite : roundUnits (10 ^ k * one) 1 < infinityPattern) : d.reread.isFinite = true := by
  have hstep := Decimal.step_le_of_two_steps one_pos (two_steps_le hzero) hd
  have hbound := Decimal.atStep_le one_pos hstep hd
  rw [← Nat.mul_one (_ * _ * one)] at hbound
  rw [isFinite, reread, ofDecimal_eq, pattern_ofRatio]
  exact decide_eq_true (Nat.lt_of_le_of_lt (roundUnits_mono (Decimal.ten_pow_pos _) Nat.one_pos hbound) hfinite)

/-- A number with more digits than are ever written without an exponent is written with sixteen. -/
theorem lastStep_of_large {d : Double} {k : Nat} (hk : 21 ≤ k) (hlow : one * 10 ^ k ≤ d.magnitude)
    (hhigh : d.magnitude < one * 10 ^ (k + 1)) : d.lastStep = k - 15 := by
  have hlong : d.isLongWhole = false := by
    have hpower : powerOfTen 21 ≤ d.magnitude := by
      rw [Nat.mul_comm] at hlow
      exact Nat.le_trans (Nat.mul_le_mul_right one (Nat.pow_le_pow_right (by decide) hk)) hlow
    rw [isLongWhole, decide_eq_false (Nat.not_lt.mpr hpower), Bool.and_false]
  have hsmall := isSmallFraction_of_one_le
    (Nat.le_trans (Nat.le_mul_of_pos_right one (Decimal.ten_pow_pos k)) hlow)
  have hleading := Decimal.leadingExponent_eq one_pos hlow hhigh
  have hexponent := d.generalExponent_cases
  rw [hleading] at hexponent
  rw [lastStep, hlong, hsmall, if_neg Bool.false_ne_true, if_neg Bool.false_ne_true, if_pos (by omega), hleading]

/-- A greater number has no smaller digits. -/
theorem pattern_ofDecimal_atStep_mono {m n : Nat} (h : m ≤ n) (step : Int) (negative positive : Bool) :
    (ofDecimal negative (Decimal.atStep step m one) step).pattern ≤
      (ofDecimal positive (Decimal.atStep step n one) step).pattern := by
  rw [ofDecimal_eq, ofDecimal_eq, pattern_ofRatio, pattern_ofRatio]
  exact roundUnits_mono_left (Nat.mul_le_mul_right _ (Nat.mul_le_mul_right _ (Decimal.atStep_mono h step one)))
    (Decimal.ten_pow_pos _)

/-- Neither `10 ^ 308` nor the digits of the third largest number, which is below the next power of ten, are rounded
to infinity. -/
theorem roundUnits_ends : roundUnits (10 ^ 308 * one) 1 < infinityPattern ∧
    unitsOf (infinityPattern - 3) < one * 10 ^ (308 + 1) ∧
    (ofDecimal false (Decimal.atStep 293 (unitsOf (infinityPattern - 3)) one) 293).pattern < infinityPattern := by
  decide +kernel

/-- From `10 ^ 308` on the third largest number has the most digits that are read as finite. -/
theorem isFinite_reread_of_large {d : Double} (hlow : one * 10 ^ 308 ≤ d.magnitude)
    (hpattern : d.pattern ≤ infinityPattern - 3) : d.reread.isFinite = true := by
  have hthird := roundUnits_ends.2
  have hmagnitude : d.magnitude ≤ unitsOf (infinityPattern - 3) := unitsOf_le hpattern
  have hstep : d.lastStep = 293 :=
    lastStep_of_large (by decide : 21 ≤ 308) hlow (Nat.lt_of_le_of_lt hmagnitude hthird.1)
  rw [reread, hstep]
  exact decide_eq_true (Nat.lt_of_le_of_lt (pattern_ofDecimal_atStep_mono hmagnitude 293 _ false) hthird.2)

/-- The text of zero is read as zero. The two largest numbers of either sign are written as more than the largest
number. -/
theorem toDouble?_text_ends :
    (Text.ofString (String.ofList ['0'])).toDouble? = some (zero false) ∧
      ∀ negative : Bool, ∀ p ∈ [infinityPattern - 1, infinityPattern - 2],
        (Text.ofString (ofPattern negative p).text).toDouble? = some (infinity negative) := by
  decide +kernel

section Finite
variable {d : Double} (hd : d.isFinite = true)
include hd

theorem isFinite_reread (hzero : d.isZero = false) :
    d.reread.isFinite = true ↔ d.pattern < infinityPattern - 2 := by
  have hbelow : d.pattern < infinityPattern := of_decide_eq_true hd
  constructor
  · intro hread
    refine Nat.lt_of_not_le fun hle => ?_
    have hlargest : d.pattern ∈ [infinityPattern - 1, infinityPattern - 2] := by
      simp only [List.mem_cons, List.not_mem_nil, or_false]
      omega
    have hinfinite := toDouble?_text_ends.2 d.isNegative _ hlargest
    rw [ofPattern_pattern, toDouble?_text hd hzero, Option.some.injEq] at hinfinite
    rw [hinfinite] at hread
    revert hread
    cases d.isNegative <;> decide
  · intro hpattern
    have hpower := roundUnits_ends.1
    rcases Nat.le_total (one * 10 ^ 308) d.magnitude with hlow | hhigh
    · exact isFinite_reread_of_large hlow (by omega)
    · rw [Nat.mul_comm] at hhigh
      exact isFinite_reread_of_le hzero hhigh hpower

/-- What a finite number is read back as. -/
theorem exists_toDouble?_text :
    ∃ r, (Text.ofString d.text).toDouble? = some r ∧ r.isNaN = false ∧ (r.isZero = true ↔ d.isZero = true) ∧
      (d.isZero = false → r.isNegative = d.isNegative) ∧
      (r.isFinite = true ↔ d.pattern < infinityPattern - 2) := by
  cases hzero : d.isZero with
  | true =>
    have hread := toDouble?_text_ends.1
    have hpattern : d.pattern = 0 := of_decide_eq_true hzero
    refine ⟨zero false, ?_, by decide, by decide, fun hne => absurd hne (by decide), ?_⟩
    · rw [text_of_isFinite hd, finiteText, hzero, if_pos rfl, hread]
    · rw [hpattern]
      decide
  | false =>
    refine ⟨_, toDouble?_text hd hzero, ?_, ?_, fun _ => ?_, isFinite_reread hd hzero⟩
    · rw [reread, ofDecimal_eq, isNaN_ofRatio]
    · rw [isZero_reread hzero]
    · rw [reread, ofDecimal_eq, isNegative_ofRatio]

end Finite
end Double

/-! ### Values -/

theorem Value.ofNumber_infinity (negative : Bool) :
    ofNumber (Double.infinity negative) = infinity (Sign.of (Double.infinity negative)) := by
  cases negative <;> decide

/-- The finite numbers but for the two largest of either sign are read back as finite numbers, those as the
infinity of their sign. -/
theorem exists_readsBack {h : Heap} (hn : h.HasNext) {v : Value} (hv : v.isFiniteNumber = true) :
    ∃ w, ReadsBack h v w ∧ (v.toDouble.pattern < Double.infinityPattern - 2 → w.isFiniteNumber = true) ∧
      (Double.infinityPattern - 2 ≤ v.toDouble.pattern → w = .infinity (Sign.of v.toDouble)) := by
  cases v with
  | int32 n =>
    have hbound := Double.pattern_ofInt_lt (natAbs_toInt_lt n)
    have hsmall : 1076 * 2 ^ 52 ≤ Double.infinityPattern - 2 := by decide
    refine ⟨_, readsBack_int32 hn n, fun _ => rfl, fun hle => ?_⟩
    exact absurd hbound (Nat.not_lt.mpr (Nat.le_trans hsmall hle))
  | double d =>
    cases hzero : d.val.isZero with
    | true =>
      have hpattern : (Value.double d).toDouble.pattern = 0 := of_decide_eq_true hzero
      refine ⟨_, readsBack_zero hzero, fun _ => rfl, fun hle => ?_⟩
      rw [hpattern] at hle
      exact absurd hle (by decide)
    | false =>
      obtain ⟨r, hread, hnumber, -, hsign, hfinite⟩ := Double.exists_toDouble?_text d.isFinite
      refine ⟨_, readsBack_of_text hn (toStringRef_double hzero) hread, fun hlt => ?_, fun hle => ?_⟩
      · exact (Value.ofNumber_of_isFinite (hfinite.mpr hlt)).1
      · have hr : r.isFinite = false := Bool.eq_false_iff.mpr fun hr => Nat.not_lt.mpr hle (hfinite.mp hr)
        rw [Double.eq_infinity hnumber hr, hsign hzero, Value.ofNumber_infinity, Sign.of, Double.infinity,
          Double.isNegative_ofPattern _ _ (by decide)]
        rfl
  | _ => cases hv

/-- The text of a finite double is a numeral. Its value is zero just for a zero, has the sign of the double
otherwise, and is finite but for the two largest doubles of either sign, whose sixteen digits are more than the
largest double is. So no finite number becomes `nan` on its way through a string, and none but those becomes an
infinity. -/
theorem finite_readsBack :
    (∀ d : Double, d.isFinite = true → ∃ r, (Text.ofString d.text).toDouble? = some r ∧ r.isNaN = false ∧
        (r.isZero = true ↔ d.isZero = true) ∧ (d.isZero = false → r.isNegative = d.isNegative) ∧
        (r.isFinite = true ↔ d.pattern < Double.infinityPattern - 2)) ∧
      ∀ (h : Heap) (v : Value), h.HasNext → v.isFiniteNumber = true → ∃ w, ReadsBack h v w ∧
        (v.toDouble.pattern < Double.infinityPattern - 2 → w.isFiniteNumber = true) ∧
        (Double.infinityPattern - 2 ≤ v.toDouble.pattern → w = .infinity (Sign.of v.toDouble)) :=
  ⟨fun _ hd => Double.exists_toDouble?_text hd, fun _ _ hn hv => exists_readsBack hn hv⟩

/-- The third largest double is read back as a finite number. -/
theorem finite_readsBack_thirdLargest :
    ∃ w, ReadsBack (Heap.new {}) (.double ⟨⟨0x7feffffffffffffd⟩, by decide⟩) w ∧ w.isFiniteNumber = true := by
  obtain ⟨w, hback, hfinite, -⟩ := finite_readsBack.2 (Heap.new {}) (.double ⟨⟨0x7feffffffffffffd⟩, by decide⟩)
    (by decide : (0 : Nat) < 2 ^ 32) rfl
  exact ⟨w, hback, hfinite (by decide)⟩

/-- The largest double is finite, and is read back as infinity. -/
theorem largest_readsBack_infinity :
    Double.largest.isFinite = true ∧ Double.largest.text = "1.797693134862316e+308" ∧
      (Text.ofString Double.largest.text).toDouble? = some (Double.infinity false) ∧
      (Double.infinity false).isFinite = false ∧
      ReadsBack (Heap.new {}) (.double ⟨Double.largest, by decide⟩) (.infinity .positive) := by
  refine ⟨by decide, by decide +kernel, by decide +kernel, by decide, ?_⟩
  obtain ⟨w, hback, -, hinfinite⟩ := exists_readsBack (h := Heap.new {}) (v := .double ⟨Double.largest, by decide⟩)
    (by decide : (0 : Nat) < 2 ^ 32) rfl
  rwa [hinfinite (by decide)] at hback

end ScriptCore
