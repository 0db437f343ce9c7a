import ScriptCore.Proofs.SixteenDigits

/-! The order of written numbers.

A text denotes the digits of its number down to the last step (`toRat?_text`). In no layout does rounding cross a
power of ten (`pow_le_writtenRat`, `writtenRat_le_pow`), so layouts that meet at a power of ten keep the order of
numbers on its two sides, and so do numbers with different leading digits. The ends of the range that is written
with ten places are doubles next to `1e-6` and `1e-4`, and are written as those. Within a layout digits are rounded
by one step, or by the steps of one leading digit. So the texts of finite doubles are in their order, and a minus sign
is all that negation changes (`text_monotone_odd`). -/
namespace ScriptCore.Double

/-! ### Digits -/

/-- The number that the digits down to the last step stand for, without its sign. -/
def writtenRat (d : Double) : ℚ := Decimal.atStep d.lastStep d.magnitude one * 10 ^ d.lastStep

theorem writtenRat_nonneg (d : Double) : 0 ≤ d.writtenRat := by
  unfold writtenRat
  positivity

theorem writtenRat_general {d : Double} (hlong : d.isLongWhole = false) (hsmall : d.isSmallFraction = false) :
    d.writtenRat = d.general.toRat 16 := by
  have hfirst : d.general.toRat 16 = Decimal.atStep (Decimal.leadingExponent d.magnitude one - 15) d.magnitude one *
      10 ^ (Decimal.leadingExponent d.magnitude one - 15) :=
    Decimal.toRat_atDigits (by decide)
  unfold writtenRat lastStep
  rw [hlong, hsmall, if_neg Bool.false_ne_true, if_neg Bool.false_ne_true]
  split
  · exact hfirst.symm
  · rw [atStep_generalExponent, toRat_general]

/-- The text of a number that is not zero denotes its digits. -/
theorem toRat?_text {d : Double} (hd : d.isFinite = true) (hzero : d.isZero = false) :
    (Text.ofString d.text).toRat? = some (if d.isNegative then -d.writtenRat else d.writtenRat) := by
  have hplaces : ∀ places : Nat, d.lastStep = -places →
      (Text.ofString (String.ofList (d.written (d.fixedRuns places)))).toRat? =
        some (if d.isNegative then -d.writtenRat else d.writtenRat) := fun places hstep => by
    rw [fixedRuns, toRat?_written_plain, Decimal.atPlaces_eq, writtenRat, hstep]
  rw [text_of_isFinite hd, finiteText, hzero, if_neg Bool.false_ne_true]
  cases hlong : d.isLongWhole with
  | true =>
    rw [if_pos rfl, laidOut_fixedRuns_zero]
    exact hplaces 0 (by rw [lastStep, hlong, if_pos rfl, Int.natCast_zero, Int.neg_zero])
  | false =>
    rw [if_neg Bool.false_ne_true]
    cases hsmall : d.isSmallFraction with
    | true =>
      rw [if_pos rfl]
      exact hplaces 10 (by rw [lastStep, hlong, hsmall, if_neg Bool.false_ne_true, if_pos rfl]; rfl)
    | false =>
      rw [if_neg Bool.false_ne_true, writtenRat_general hlong hsmall]
      exact toRat?_generalText hd

/-! ### Powers of ten -/

section Powers
variable {d : Double} (hzero : d.isZero = false) {k : ℤ}
include hzero

theorem pow_lastStep_le : (10 : ℚ) ^ d.lastStep ≤ d.magnitude / one := by
  have hsteps := two_steps_le hzero
  rw [Decimal.zpow_le_div_iff one_pos]
  omega

theorem pow_le_writtenRat (hk : (10 : ℚ) ^ k ≤ d.magnitude / one) : 10 ^ k ≤ d.writtenRat := by
  rcases le_total d.lastStep k with hle | hle
  · exact Decimal.pow_le_atStep one_pos hle hk
  · calc (10 : ℚ) ^ k
      _ ≤ 10 ^ d.lastStep := zpow_le_zpow_right₀ (by norm_num) hle
      _ ≤ d.writtenRat := Decimal.pow_le_atStep one_pos le_rfl (pow_lastStep_le hzero)

theorem writtenRat_le_pow (hk : (d.magnitude / one : ℚ) ≤ 10 ^ k) : d.writtenRat ≤ 10 ^ k := by
  have hstep : d.lastStep ≤ k := (zpow_le_zpow_iff_right₀ (by norm_num)).mp ((pow_lastStep_le hzero).trans hk)
  exact Decimal.atStep_le_pow one_pos hstep hk

end Powers

/-! ### Layouts -/

/-- The layouts with their magnitudes and what is written in them. -/
inductive Layout (d : Double) : Prop where
  | longWhole (hlow : powerOfTen 16 ≤ d.magnitude) (hhigh : d.magnitude < powerOfTen 21) (hstep : d.lastStep = 0)
  | smallFraction (hlow : smallFractionLow.magnitude ≤ d.magnitude)
      (hhigh : d.magnitude ≤ smallFractionHigh.magnitude) (hstep : d.lastStep = -10)
  | general (hlong : d.magnitude < powerOfTen 16 ∨ powerOfTen 21 ≤ d.magnitude)
      (hsmall : d.magnitude < smallFractionLow.magnitude ∨ smallFractionHigh.magnitude < d.magnitude)
      (hwritten : d.writtenRat = d.general.toRat 16)

theorem layout (d : Double) : d.Layout := by
  cases hlong : d.isLongWhole with
  | true =>
    have hstep : d.lastStep = 0 := by rw [lastStep, hlong, if_pos rfl]
    rw [isLongWhole, Bool.and_eq_true, decide_eq_true_iff, decide_eq_true_iff] at hlong
    exact .longWhole hlong.1 hlong.2 hstep
  | false =>
    cases hsmall : d.isSmallFraction with
    | true =>
      have hstep : d.lastStep = -10 := by rw [lastStep, hlong, hsmall, if_neg Bool.false_ne_true, if_pos rfl]
      rw [isSmallFraction, Bool.and_eq_true, decide_eq_true_iff, decide_eq_true_iff] at hsmall
      exact .smallFraction hsmall.1 hsmall.2 hstep
    | false =>
      have hwritten := writtenRat_general hlong hsmall
      rw [isLongWhole, Bool.and_eq_false_iff, decide_eq_false_iff_not, decide_eq_false_iff_not] at hlong
      rw [isSmallFraction, Bool.and_eq_false_iff, decide_eq_false_iff_not, decide_eq_false_iff_not] at hsmall
      exact .general (by omega) (by omega) hwritten

/-- The ends of the range written with ten places are next to `1e-6` and `1e-4`, and are written as those. -/
theorem smallFraction_ends : smallFractionLow.magnitude * 10 ^ 6 ≤ one ∧ one ≤ smallFractionHigh.magnitude * 10 ^ 4 ∧
    Decimal.atStep (-10) smallFractionLow.magnitude one = 10 ^ 4 ∧
    Decimal.atStep (-10) smallFractionHigh.magnitude one = 10 ^ 6 := by
  decide +kernel

theorem smallFractionHigh_lt : smallFractionHigh.magnitude < powerOfTen 16 := by decide +kernel

section Bounds
variable {d : Double}

theorem writtenRat_smallFraction (hlow : smallFractionLow.magnitude ≤ d.magnitude)
    (hhigh : d.magnitude ≤ smallFractionHigh.magnitude) (hstep : d.lastStep = -10) :
    10 ^ (-6 : ℤ) ≤ d.writtenRat ∧ d.writtenRat ≤ 10 ^ (-4 : ℤ) := by
  have hless := Decimal.atStep_mono hlow (-10) one
  have hmore := Decimal.atStep_mono hhigh (-10) one
  rw [smallFraction_ends.2.2.1] at hless
  rw [smallFraction_ends.2.2.2] at hmore
  have hpos := Decimal.ten_zpow_pos (-10)
  rw [writtenRat, hstep]
  constructor
  · calc (10 : ℚ) ^ (-6 : ℤ)
      _ = (10 ^ 4 : ℕ) * 10 ^ (-10 : ℤ) := by norm_num
      _ ≤ _ := mul_le_mul_of_nonneg_right (by exact_mod_cast hless) hpos.le
  · calc (Decimal.atStep (-10) d.magnitude one * 10 ^ (-10 : ℤ) : ℚ)
      _ ≤ (10 ^ 6 : ℕ) * 10 ^ (-10 : ℤ) := mul_le_mul_of_nonneg_right (by exact_mod_cast hmore) hpos.le
      _ = 10 ^ (-4 : ℤ) := by norm_num

variable (hzero : d.isZero = false)
include hzero

theorem writtenRat_le_of_lt_low (hd : d.magnitude < smallFractionLow.magnitude) : d.writtenRat ≤ 10 ^ (-6 : ℤ) := by
  refine writtenRat_le_pow hzero ((Decimal.div_le_zpow_iff one_pos _).mpr ?_)
  rw [show (-6 : ℤ).toNat = 0 from rfl, show (-(-6) : ℤ).toNat = 6 from rfl, Nat.pow_zero, Nat.mul_one]
  exact (Nat.mul_le_mul_right _ hd.le).trans smallFraction_ends.1

theorem le_writtenRat_of_high_lt (hd : smallFractionHigh.magnitude < d.magnitude) : 10 ^ (-4 : ℤ) ≤ d.writtenRat := by
  refine pow_le_writtenRat hzero ((Decimal.zpow_le_div_iff one_pos _).mpr ?_)
  rw [show (-4 : ℤ).toNat = 0 from rfl, show (-(-4) : ℤ).toNat = 4 from rfl, Nat.pow_zero, Nat.mul_one]
  exact smallFraction_ends.2.1.trans (Nat.mul_le_mul_right _ hd.le)

theorem writtenRat_le_of_lt_powerOfTen {k : Nat} (hd : d.magnitude < powerOfTen k) : d.writtenRat ≤ 10 ^ (k : ℤ) := by
  refine writtenRat_le_pow hzero ((Decimal.div_le_zpow_iff one_pos _).mpr ?_)
  rw [Int.toNat_natCast, Int.toNat_neg_natCast, Nat.pow_zero, Nat.mul_one, Nat.mul_comm]
  exact hd.le

theorem le_writtenRat_of_powerOfTen_le {k : Nat} (hd : powerOfTen k ≤ d.magnitude) : 10 ^ (k : ℤ) ≤ d.writtenRat := by
  refine pow_le_writtenRat hzero ((Decimal.zpow_le_div_iff one_pos _).mpr ?_)
  rw [Int.toNat_natCast, Int.toNat_neg_natCast, Nat.pow_zero, Nat.mul_one, Nat.mul_comm]
  exact hd

end Bounds

section Order
variable {a b : Double} (hle : a.magnitude ≤ b.magnitude)
include hle

theorem writtenRat_mono_of_lastStep (hstep : a.lastStep = b.lastStep) : a.writtenRat ≤ b.writtenRat := by
  rw [writtenRat, writtenRat, hstep]
  exact mul_le_mul_of_nonneg_right (by exact_mod_cast Decimal.atStep_mono hle _ _) (Decimal.ten_zpow_pos _).le

variable (ha : a.isZero = false)
include ha

/-- A greater number is not written as a smaller one, within a layout and across layouts. -/
theorem writtenRat_mono : a.writtenRat ≤ b.writtenRat := by
  have hpos := magnitude_pos_iff.mpr ha
  have hb : b.isZero = false := magnitude_pos_iff.mp (hpos.trans_le hle)
  have hhigh := smallFractionHigh_lt
  cases a.layout with
  | longWhole halow hahigh hastep =>
    cases b.layout with
    | longWhole _ _ hbstep => exact writtenRat_mono_of_lastStep hle (hastep.trans hbstep.symm)
    | smallFraction _ hbhigh _ => omega
    | general hblong _ _ =>
      exact (writtenRat_le_of_lt_powerOfTen ha hahigh).trans (le_writtenRat_of_powerOfTen_le hb (by omega))
  | smallFraction halow hahigh hastep =>
    have habove := (writtenRat_smallFraction halow hahigh hastep).2
    cases b.layout with
    | longWhole hblow _ _ => exact habove.trans (le_writtenRat_of_high_lt hb (by omega))
    | smallFraction _ _ hbstep => exact writtenRat_mono_of_lastStep hle (hastep.trans hbstep.symm)
    | general _ hbsmall _ => exact habove.trans (le_writtenRat_of_high_lt hb (by omega))
  | general halong hasmall hawritten =>
    cases b.layout with
    | longWhole hblow hbhigh _ =>
      exact (writtenRat_le_of_lt_powerOfTen ha (by omega)).trans (le_writtenRat_of_powerOfTen_le hb hblow)
    | smallFraction hblow hbhigh hbstep =>
      exact (writtenRat_le_of_lt_low ha (by omega)).trans (writtenRat_smallFraction hblow hbhigh hbstep).1
    | general _ _ hbwritten =>
      rw [hawritten, hbwritten, Double.general, Double.general]
      exact Decimal.toRat_atDigits_mono one_pos (by decide) hpos hle

end Order

/-! ### Signs -/

/-- The number that the digits of a text denote, zero for either zero. -/
def printedMagnitude (d : Double) : ℚ := if d.isZero then 0 else d.writtenRat

/-- The number that the text of a finite double denotes. -/
def printedRat (d : Double) : ℚ := if d.isNegative then -d.printedMagnitude else d.printedMagnitude

theorem toRat?_text_eq {d : Double} (hd : d.isFinite = true) : (Text.ofString d.text).toRat? = some d.printedRat := by
  cases hzero : d.isZero with
  | false => rw [toRat?_text hd hzero, printedRat, printedMagnitude, hzero, if_neg Bool.false_ne_true]
  | true =>
    have hread : (Text.ofString (String.ofList ['0'])).toRat? = some 0 := by decide +kernel
    rw [text_of_isFinite hd, finiteText, printedRat, printedMagnitude, hzero, if_pos rfl, if_pos rfl, neg_zero,
      ite_self, hread]

theorem printedMagnitude_nonneg (d : Double) : 0 ≤ d.printedMagnitude := by
  unfold printedMagnitude
  split
  · exact le_rfl
  · exact d.writtenRat_nonneg

theorem printedMagnitude_mono {a b : Double} (hle : a.pattern ≤ b.pattern) :
    a.printedMagnitude ≤ b.printedMagnitude := by
  cases ha : a.isZero with
  | true =>
    rw [printedMagnitude, ha, if_pos rfl]
    exact b.printedMagnitude_nonneg
  | false =>
    have hb : b.isZero = false := by
      have hpattern : a.pattern ≠ 0 := of_decide_eq_false ha
      exact decide_eq_false (by omega)
    rw [printedMagnitude, printedMagnitude, ha, hb, if_neg Bool.false_ne_true]
    exact writtenRat_mono (unitsOf_le hle) ha

theorem printedRat_mono {a b : Double} (hle : a.key ≤ b.key) : a.printedRat ≤ b.printedRat := by
  have hanonneg := a.printedMagnitude_nonneg
  have hbnonneg := b.printedMagnitude_nonneg
  unfold key at hle
  unfold printedRat
  cases ha : a.isNegative <;> cases hb : b.isNegative <;> rw [ha, hb] at hle <;>
    simp only [if_true, Bool.false_eq_true, if_false] at hle ⊢
  · exact printedMagnitude_mono (by omega)
  · -- Only zeros are in this order.
    have hazero : a.isZero = true := decide_eq_true (by omega)
    have hbzero : b.isZero = true := decide_eq_true (by omega)
    rw [printedMagnitude, printedMagnitude, hazero, hbzero, if_pos rfl, if_pos rfl, neg_zero]
  · linarith
  · exact neg_le_neg (printedMagnitude_mono (by omega))

section Negation
variable {d : Double} (hsign : d.isNegative = false)
include hsign

/-- A minus sign stands before all of the digits, those that are cut off included. -/
theorem laidOut_neg (runs : List Char × List Char) : d.neg.laidOut runs = '-' :: d.laidOut runs := by
  rw [laidOut, laidOut, neg, isNegative_ofPattern _ _ d.pattern_lt, hsign]
  rfl

theorem written_split_neg (places n : Nat) :
    d.neg.written (Decimal.split places n) = '-' :: d.written (Decimal.split places n) := by
  rw [written_split, written_split, neg, isNegative_ofPattern _ _ d.pattern_lt, hsign]
  rfl

theorem finiteText_neg (hzero : d.isZero = false) : d.neg.finiteText = '-' :: d.finiteText := by
  have hpattern : d.neg.pattern = d.pattern := pattern_ofPattern _ _ d.pattern_lt
  have hmagnitude : d.neg.magnitude = d.magnitude := by rw [magnitude, hpattern, magnitude]
  unfold finiteText generalText fixedRuns isLongWhole isSmallFraction
  rw [isZero, hpattern, ← isZero, hzero, hmagnitude, if_neg Bool.false_ne_true, if_neg Bool.false_ne_true]
  simp only [laidOut_neg hsign, written_split_neg hsign, apply_ite (List.cons '-'), List.cons_append]

theorem text_neg (hnumber : d.isNaN = false) (hzero : d.isZero = false) : d.neg.text = "-" ++ d.text := by
  have hpattern : d.neg.pattern = d.pattern := pattern_ofPattern _ _ d.pattern_lt
  have hnegative : d.neg.isNegative = true := by rw [neg, isNegative_ofPattern _ _ d.pattern_lt, hsign]; rfl
  have hnan : d.neg.isNaN = false := by rw [isNaN, hpattern]; exact hnumber
  have hinfinite : d.neg.isInfinite = d.isInfinite := by rw [isInfinite, hpattern, isInfinite]
  have hminus : "-" = String.ofList ['-'] := rfl
  rw [text, text, hnan, hnumber, hinfinite, hnegative, hsign, if_neg Bool.false_ne_true, if_neg Bool.false_ne_true]
  cases d.isInfinite with
  | true => rfl
  | false =>
    rw [if_neg Bool.false_ne_true, if_neg Bool.false_ne_true, finiteText_neg hsign hzero, hminus,
      ← String.ofList_append, List.singleton_append]

end Negation

/-- A finite double that is not greater than another has no greater text, and the text of the negative of a positive
number is a minus sign and the text of the number. -/
theorem text_monotone_odd :
    (∀ a b : Double, a.isFinite = true → b.isFinite = true → a.numLe b = true →
      ∃ x y : ℚ, (Text.ofString a.text).toRat? = some x ∧ (Text.ofString b.text).toRat? = some y ∧ x ≤ y) ∧
    ∀ d : Double, (zero false).numLt d = true → d.neg.text = "-" ++ d.text := by
  constructor
  · intro a b ha hb hle
    simp only [numLe, Bool.and_eq_true, decide_eq_true_eq] at hle
    exact ⟨_, _, toRat?_text_eq ha, toRat?_text_eq hb, printedRat_mono hle.2⟩
  · intro d hd
    have hnone : (zero false).key = 0 := by decide
    simp only [numLt, Bool.and_eq_true, decide_eq_true_eq, Bool.not_eq_true', hnone] at hd
    obtain ⟨⟨-, hnumber⟩, hpositive⟩ := hd
    unfold key at hpositive
    cases hsign : d.isNegative with
    | true =>
      rw [hsign, if_pos rfl] at hpositive
      omega
    | false =>
      rw [hsign, if_neg Bool.false_ne_true] at hpositive
      exact text_neg hsign hnumber (decide_eq_false (by omega))

/-- The last number in front of the range written with ten places, and the first one in it. -/
theorem text_monotone_odd_millionth :
    let a : Double := ⟨0x3eb0c6f7a0b5ed8c⟩
    (a.isFinite = true ∧ smallFractionLow.isFinite = true ∧ a.numLe smallFractionLow = true ∧
      (zero false).numLt a = true) ∧
    (a.text = "9.999999999999997e-7" ∧ smallFractionLow.text = "0.000001") ∧
    (∃ x y : ℚ, (Text.ofString a.text).toRat? = some x ∧ (Text.ofString smallFractionLow.text).toRat? = some y ∧
      x ≤ y) ∧
    a.neg.text = "-" ++ a.text := by
  intro a
  have hvalid : a.isFinite = true ∧ smallFractionLow.isFinite = true ∧ a.numLe smallFractionLow = true ∧
      (zero false).numLt a = true := by decide +kernel
  exact ⟨hvalid, by decide +kernel, text_monotone_odd.1 a smallFractionLow hvalid.1 hvalid.2.1 hvalid.2.2.1,
    text_monotone_odd.2 a hvalid.2.2.2⟩

end ScriptCore.Double
