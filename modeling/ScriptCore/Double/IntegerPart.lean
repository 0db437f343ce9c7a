import ScriptCore.Double.Monotone

/-! Integer parts.

The integer part of a finite double is a double (`units_trunc`): from `2 ^ 53` on doubles are whole, and smaller
ones have integer parts that are held without rounding (`exists_unitsOf_floor`). Integers of whole doubles are
then as good as the doubles. In particular the remainder by a positive integer below `2 ^ 53`, moved to the side
of zero where it is not negative, is that of the integers (`units_modulo`), and no step on the way to it
rounds. -/
namespace ScriptCore.Double

/-! ### Signs -/

theorem isNegative_trunc {d : Double} (hd : d.isFinite = true) : d.trunc.isNegative = d.isNegative := by
  rw [trunc, if_pos hd, isNegative_ofRatio]

theorem natAbs_integerPart (d : Double) : d.integerPart.natAbs = d.magnitude / one := by
  rw [integerPart, Int.natAbs_tdiv, natAbs_units, Int.natAbs_natCast]
  rfl

/-- The integer part lies on the side of zero that the number is on. -/
theorem integerPart_side (d : Double) : if d.isNegative then d.integerPart ≤ 0 else 0 ≤ d.integerPart := by
  have hquotient : 0 ≤ (d.magnitude : Int).tdiv one :=
    Int.tdiv_nonneg (Int.natCast_nonneg _) (Int.natCast_nonneg _)
  unfold integerPart units
  split
  · rw [Int.neg_tdiv]
    omega
  · exact hquotient

theorem integerPart_eq (d : Double) :
    d.integerPart =
      if d.isNegative then -((d.magnitude / one : Nat) : Int) else ((d.magnitude / one : Nat) : Int) := by
  have habs := natAbs_integerPart d
  have hside := integerPart_side d
  split at hside
  · rw [if_pos ‹_›]
    omega
  · rw [if_neg ‹_›]
    omega

/-- A number is below zero just when its key is. -/
theorem key_neg_iff (d : Double) : d.key < 0 ↔ d.units < 0 := by
  have hzero : d.magnitude = 0 ↔ d.pattern = 0 := unitsOf_eq_zero
  unfold key units
  split <;> omega

section Number
variable {d : Double} (hnumber : d.isNaN = false)
include hnumber

theorem numLt_zero : d.numLt (zero false) = decide (d.key < 0) := by
  have hzero : (zero false).isNaN = false ∧ (zero false).key = 0 := by decide
  rw [numLt, hnumber, hzero.1, hzero.2]
  rfl

theorem numLe_zero : d.numLe (zero false) = decide (d.key ≤ 0) := by
  have hzero : (zero false).isNaN = false ∧ (zero false).key = 0 := by decide
  rw [numLe, hnumber, hzero.1, hzero.2]
  rfl

end Number

/-! ### Whole doubles -/

/-- Large magnitudes are whole. -/
theorem one_dvd_unitsOf {p : Nat} (hp : 1076 * 2 ^ 52 ≤ p) : one ∣ unitsOf p := by
  obtain ⟨e, f, hf, rfl⟩ := exists_exponent_fraction p (by omega)
  have hpow := two_pow_mul_one (e - 1074)
  rw [Nat.sub_add_cancel (by omega)] at hpow
  rw [unitsOf_add e f hf, ← hpow, ← Nat.mul_assoc]
  exact Nat.dvd_mul_left _ _

/-- The integer part of a magnitude is a magnitude. -/
theorem exists_unitsOf_floor (p : Nat) : ∃ q, q ≤ p ∧ unitsOf q = unitsOf p / one * one := by
  by_cases hp : 1076 * 2 ^ 52 ≤ p
  · exact ⟨p, Nat.le_refl p, (Nat.div_mul_cancel (one_dvd_unitsOf hp)).symm⟩
  · have hsmall : unitsOf p < 2 ^ 53 * one := by
      have hlt := unitsOf_lt (Nat.lt_of_not_le hp)
      rwa [unitsOf_powerOfTwo 1074, ← one] at hlt
    obtain ⟨q, -, hq⟩ := exists_unitsOf_eq ((Nat.div_lt_iff_lt_mul one_pos).mpr hsmall)
    refine ⟨q, Nat.le_of_not_lt fun hlt => ?_, hq⟩
    exact Nat.not_lt.mpr (hq ▸ Nat.div_mul_le_self _ _) (unitsOf_lt hlt)

section Finite
variable {d : Double} (hd : d.isFinite = true)
include hd

theorem exists_trunc_eq :
    ∃ q, q < infinityPattern ∧ unitsOf q = d.magnitude / one * one ∧ d.trunc = ofPattern d.isNegative q := by
  obtain ⟨q, hle, hq⟩ := exists_unitsOf_floor d.pattern
  have hfinite : q < infinityPattern := Nat.lt_of_le_of_lt hle (of_decide_eq_true hd)
  refine ⟨q, hfinite, hq, ?_⟩
  rw [trunc, if_pos hd, ofRatio, magnitude, ← hq, roundUnits_unitsOf q (Nat.le_of_lt hfinite)]

theorem isFinite_trunc : d.trunc.isFinite = true := by
  obtain ⟨q, hfinite, -, heq⟩ := exists_trunc_eq hd
  rw [heq, isFinite_ofPattern _ hfinite]

/-- Nothing is rounded when a number is cut off at its point. -/
theorem units_trunc : d.trunc.units = d.integerPart * one := by
  obtain ⟨q, hfinite, hq, heq⟩ := exists_trunc_eq hd
  rw [heq, units_ofPattern _ (lt_of_le_infinityPattern (Nat.le_of_lt hfinite)), hq, integerPart_eq, Int.natCast_mul]
  split
  · rw [Int.neg_mul]
  · rfl

theorem trunc_eq : d.trunc = ofSigned d.isNegative d.integerPart.natAbs := by
  rw [trunc, if_pos hd, natAbs_integerPart, ofSigned]

end Finite

theorem integerPart_of_units {d : Double} {k : Int} (hunits : d.units = k * one) : d.integerPart = k := by
  have hone : (one : Int) ≠ 0 := Int.natCast_ne_zero.mpr (Nat.ne_of_gt one_pos)
  rw [integerPart, hunits, Int.mul_tdiv_cancel _ hone]

theorem integerPart_trunc (d : Double) : d.trunc.integerPart = d.integerPart := by
  by_cases hd : d.isFinite = true
  · exact integerPart_of_units (units_trunc hd)
  · rw [trunc, if_neg hd]

/-- A double with nothing after the point is its own integer part. -/
theorem eq_trunc_of_isWhole {d : Double} (hd : d.isFinite = true) (hwhole : d.isWhole = true) : d = d.trunc := by
  have hpattern : (d.sub d.trunc).pattern = 0 := by
    have hkey : (d.sub d.trunc).key = 0 := by
      simp only [isWhole, numEq, Bool.and_eq_true, beq_iff_eq] at hwhole
      exact hwhole.2
    unfold key at hkey
    split at hkey <;> omega
  have hrounded := (pattern_abs _).symm.trans (pattern_abs_sub hd (isFinite_trunc hd))
  rw [hpattern] at hrounded
  have hunits := roundUnits_eq_zero.mp hrounded.symm
  exact eq_of_key_eq ((key_eq_iff _ _).mpr (by omega)) (isNegative_trunc hd).symm

/-! ### Integers as doubles -/

/-- The integer part tells a whole double that is no negative zero. -/
theorem ofInt_integerPart {d : Double} (hd : d.isFinite = true) (hzero : (d.isZero && d.isNegative) = false)
    (hwhole : d.isWhole = true) : ofInt d.integerPart = d := by
  have heq := (eq_trunc_of_isWhole hd hwhole).trans (trunc_eq hd)
  have hsign : decide (d.integerPart < 0) = d.isNegative := by
    have hside := integerPart_side d
    cases hneg : d.isNegative with
    | false =>
      rw [hneg, if_neg Bool.false_ne_true] at hside
      exact decide_eq_false (by omega)
    | true =>
      have hnonzero : d.integerPart ≠ 0 := fun hnone => by
        rw [hneg, hnone, Int.natAbs_zero, ofSigned_zero] at heq
        rw [heq] at hzero
        revert hzero
        decide
      rw [hneg, if_pos rfl] at hside
      exact decide_eq_true (by omega)
  rw [ofInt_eq, hsign, ← heq]

theorem integerPart_ofInt {n : Int} (hn : n.natAbs < 2 ^ 53) : (ofInt n).integerPart = n :=
  integerPart_of_units (units_ofInt hn)

theorem isWhole_ofInt {n : Int} (hn : n.natAbs < 2 ^ 53) : (ofInt n).isWhole = true := by
  have htrunc : (ofInt n).trunc = ofInt n := by
    rw [trunc_eq (isFinite_ofInt hn), integerPart_ofInt hn, isNegative_ofInt hn, ofInt_eq]
  rw [isWhole, htrunc, sub_ofInt hn hn, Int.sub_self, ofInt_eq, Int.natAbs_zero, ofSigned_zero]
  decide

section Natural
variable {n : Nat} (hn : n < 2 ^ 53)
include hn

theorem isFinite_ofNat : (ofNat n).isFinite = true := isFinite_ofSigned false hn

theorem units_ofNat : (ofNat n).units = n * one := units_ofSigned false hn

theorem magnitude_ofNat : (ofNat n).magnitude = n * one := by
  rw [magnitude_of_units (units_ofNat hn), Int.natAbs_natCast]

theorem isZero_ofNat : (ofNat n).isZero = decide (n = 0) := by
  rw [isZero_of_units (units_ofNat hn), decide_eq_decide, Int.natCast_eq_zero]

theorem abs_ofNat : (ofNat n).abs = ofNat n := by
  obtain ⟨p, hp, -, heq⟩ := exists_ofSigned_eq false hn
  have heq : ofNat n = ofPattern false p := heq
  rw [heq, abs, pattern_ofPattern _ _ (lt_of_le_infinityPattern (Nat.le_of_lt hp))]

end Natural

/-! ### Remainders -/

/-- The remainder that is not negative, from that of the magnitude. -/
theorem emod_eq (k : Int) (m : Nat) :
    k % m = if k < 0 ∧ k.natAbs % m ≠ 0 then (m : Int) - (k.natAbs % m : Nat) else (k.natAbs % m : Nat) := by
  by_cases hk : k < 0
  · have habs : k = -(k.natAbs : Int) := by omega
    have hdvd : (m : Int) ∣ (k.natAbs : Int) ↔ k.natAbs % m = 0 :=
      Int.natCast_dvd_natCast.trans Nat.dvd_iff_mod_eq_zero
    have hneg : k % m = if (m : Int) ∣ (k.natAbs : Int) then 0 else (m : Int) - (k.natAbs % m : Nat) := by
      have hemod := Int.neg_emod (a := k.natAbs) (b := m)
      rwa [← habs, Int.natAbs_natCast, ← Int.natCast_emod] at hemod
    by_cases hrest : k.natAbs % m = 0
    · rw [hneg, if_pos (hdvd.mpr hrest), if_neg fun hboth => hboth.2 hrest, hrest, Int.natCast_zero]
    · rw [hneg, if_neg (fun h => hrest (hdvd.mp h)), if_pos ⟨hk, hrest⟩]
  · have habs : k = k.natAbs := by omega
    rw [if_neg fun hboth => hk hboth.1, Int.natCast_emod, ← habs]

/-- Only what is not zero can be below zero. -/
theorem ofSigned_numLt_zero (negative : Bool) {n : Nat} (hn : n < 2 ^ 53) :
    (ofSigned negative n).numLt (zero false) = decide (negative = true ∧ n ≠ 0) := by
  have hpos := one_pos
  rw [numLt_zero (isNaN_of_isFinite (isFinite_ofSigned negative hn)), decide_eq_decide, key_neg_iff,
    units_ofSigned negative hn]
  generalize one = unit at hpos
  cases negative with
  | false =>
    have hunits : 0 ≤ (n : Int) * unit := Int.mul_nonneg (Int.natCast_nonneg n) (Int.natCast_nonneg unit)
    simp only [Bool.false_eq_true, if_false, false_and, iff_false]
    omega
  | true =>
    rw [if_pos rfl, and_iff_right rfl, Int.neg_mul, Int.neg_lt_zero_iff, ← Int.natCast_mul, Int.natCast_pos,
      Nat.mul_pos_iff_of_pos_right hpos, Nat.pos_iff_ne_zero]

section Remainder
variable {d : Double} {k : Int} {m : Nat} (hd : d.isFinite = true) (hunits : d.units = k * one) (hm : 0 < m)
  (hlt : m < 2 ^ 53)
include hd hunits hm hlt

theorem rem_of_units : d.rem (ofNat m) = ofSigned d.isNegative (k.natAbs % m) := by
  have hzero : (ofNat m).isZero = false := by
    rw [isZero_ofNat hlt]
    exact decide_eq_false (by omega)
  rw [rem_of_isFinite hd (isFinite_ofNat hlt) hzero, magnitude_of_units hunits, magnitude_ofNat hlt,
    Nat.mul_mod_mul_right, ofSigned]

/-- The remainder of a whole number is found without rounding. -/
theorem units_modulo :
    (d.modulo (ofNat m)).isFinite = true ∧ (d.modulo (ofNat m)).units = k % (m : Int) * one := by
  have hmod := Nat.mod_lt k.natAbs hm
  have hrest : k.natAbs % m < 2 ^ 53 := Nat.lt_trans hmod hlt
  have hsign : d.isNegative = true ∧ k.natAbs % m ≠ 0 ↔ k < 0 ∧ k.natAbs % m ≠ 0 := by
    refine and_congr_left fun hnonzero => ?_
    have hk : k ≠ 0 := fun hzero => hnonzero (by rw [hzero, Int.natAbs_zero, Nat.zero_mod])
    rw [isNegative_of_units hunits hk, decide_eq_true_iff]
  rw [modulo, rem_of_units hd hunits hm hlt, ofSigned_numLt_zero _ hrest, emod_eq]
  by_cases hbelow : k < 0 ∧ k.natAbs % m ≠ 0
  · have hneg := hsign.mpr hbelow
    have hsum : (ofSigned d.isNegative (k.natAbs % m)).units + (ofNat m).units =
        ((m : Int) - (k.natAbs % m : Nat)) * one := by
      rw [units_ofSigned _ hrest, units_ofNat hlt, if_pos hneg.1, ← Int.add_mul, Int.add_comm, Int.sub_eq_add_neg]
    have hsmall : ((m : Int) - (k.natAbs % m : Nat)).natAbs < 2 ^ 53 := by omega
    rw [decide_eq_true hneg, if_pos rfl, if_pos hbelow, abs_ofNat hlt,
      add_of_units (isFinite_ofSigned _ hrest) (isFinite_ofNat hlt) hsum (by omega)]
    exact ⟨isFinite_ofInt hsmall, units_ofInt hsmall⟩
  · have hside := fun hneg => hbelow (hsign.mp hneg)
    rw [decide_eq_false hside, if_neg Bool.false_ne_true, if_neg hbelow]
    refine ⟨isFinite_ofSigned _ hrest, (units_ofSigned _ hrest).trans (congrArg (· * (one : Int)) ?_)⟩
    split
    · rename_i hneg
      have hzero : k.natAbs % m = 0 := Decidable.of_not_not fun hnonzero => hside ⟨hneg, hnonzero⟩
      rw [hzero]
      rfl
    · rfl

end Remainder

/-! ### Unsigned integers -/

theorem toUInt32_le {d : Double} (hd : d.isFinite = true) : d.toUInt32.toNat ≤ d.magnitude / one := by
  have habs := natAbs_integerPart d
  rw [toUInt32, isNaN_of_isFinite hd, if_neg Bool.false_ne_true, isInfinite_of_isFinite hd,
    if_neg Bool.false_ne_true, UInt32.toNat_ofNat_of_lt' (by unfold UInt32.size; omega)]
  omega

/-- What has 32 bits is not moved. -/
theorem toUInt32_of_units {d : Double} {k : Int} (hd : d.isFinite = true) (hunits : d.units = k * one)
    (hk : 0 ≤ k) (hlt : k < 2 ^ 32) : (d.toUInt32.toNat : Int) = k := by
  have hword : k.toNat < UInt32.size := by
    unfold UInt32.size
    omega
  rw [toUInt32, isNaN_of_isFinite hd, if_neg Bool.false_ne_true, isInfinite_of_isFinite hd,
    if_neg Bool.false_ne_true, integerPart_of_units hunits, Nat.min_eq_left (Nat.le_sub_one_of_lt hword),
    UInt32.toNat_ofNat_of_lt' hword, Int.toNat_of_nonneg hk]

end ScriptCore.Double
