import ScriptCore.Double.Monotone
import ScriptCore.Proofs.Representations
import ScriptCore.Proofs.Symmetry

/-! Equality of numbers.

Finite numbers are compared by their doubles, unless both are integers of 32 bits, which are equal only if
they are one integer (`strictEquals_finite`). So the representation of the operands counts in one case alone:
where different integers are less than an epsilon apart, they are equal as soon as one of them is a double
(`Semantics.Blurs`). Integers are one apart at least, and an epsilon of at most one blurs none of them
(`Semantics.not_blurs`). -/
namespace ScriptCore

open Heap HeapM

variable {h : Heap} {x y : Value}

/-! ### Distances -/

namespace Double

variable {a a' b b' : Double}

/-- A distance does not see the signs of zeros. -/
theorem abs_sub_congr (ha : a.isFinite = true) (hb : b.isFinite = true) (ha' : a'.isFinite = true)
    (hb' : b'.isFinite = true) (hakey : a.key = a'.key) (hbkey : b.key = b'.key) :
    (a.sub b).abs = (a'.sub b').abs := by
  have hpattern : (a.sub b).abs.pattern = (a'.sub b').abs.pattern := by
    rw [pattern_abs_sub ha hb, pattern_abs_sub ha' hb', (key_eq_iff a a').mp hakey, (key_eq_iff b b').mp hbkey]
  rw [pattern_abs, pattern_abs] at hpattern
  rw [abs, abs, hpattern]

theorem isNaN_abs_sub (ha : a.isFinite = true) (hb : b.isFinite = true) : (a.sub b).abs.isNaN = false := by
  rw [isNaN, pattern_abs_sub ha hb]
  exact decide_eq_false (Nat.not_lt.mpr (roundUnits_le _ 1))

/-- Different integers are one apart at least. -/
theorem one_le_abs_sub {m n : Int} (hm : m.natAbs < 2 ^ 53) (hn : n.natAbs < 2 ^ 53) (hne : m ≠ n) :
    (ofInt 1).key ≤ ((ofInt m).sub (ofInt n)).abs.key := by
  have hone : (ofInt 1).key = (roundUnits one 1 : Nat) := by
    rw [key, isNegative_ofInt (by decide), decide_eq_false (by decide), if_neg Bool.false_ne_true, ofInt,
      pattern_ofRatio, Int.natAbs_one, Nat.one_mul]
  have hunits : one ≤ ((ofInt m).units - (ofInt n).units).natAbs := by
    rw [units_ofInt hm, units_ofInt hn, ← Int.sub_mul, Int.natAbs_mul, Int.natAbs_natCast]
    exact Nat.le_mul_of_pos_left _ (by omega)
  rw [hone, key_abs, ← pattern_abs, pattern_abs_sub (isFinite_ofInt hm) (isFinite_ofInt hn)]
  exact Int.ofNat_le.mpr (roundUnits_mono_left hunits Nat.one_pos)

end Double

namespace Semantics

variable (s : Semantics)

theorem numbersEqual_congr {a a' b b' : Double} (ha : a.isFinite = true) (hb : b.isFinite = true)
    (ha' : a'.isFinite = true) (hb' : b'.isFinite = true) (hakey : a.key = a'.key) (hbkey : b.key = b'.key) :
    s.numbersEqual a b = s.numbersEqual a' b' := by
  rw [numbersEqual, numbersEqual, Double.abs_sub_congr ha hb ha' hb' hakey hbkey, Double.numEq_of_isFinite ha hb,
    Double.numEq_of_isFinite ha' hb', hakey, hbkey]

/-- The epsilon of valid semantics is positive, so that a number is equal to itself. -/
theorem numbersEqual_self (hs : s.isValid = true) {d : Double} (hd : d.isFinite = true) :
    s.numbersEqual d d = true := by
  unfold numbersEqual
  split
  · simp only [isValid, Bool.and_eq_true, Bool.not_eq_true'] at hs
    obtain ⟨hfinite, hpositive⟩ := hs
    have hzero : (Double.zero false).isNaN = false ∧ (Double.zero false).key = 0 := by decide
    have hepsilon := Double.isNaN_of_isFinite hfinite
    have hkey : 0 < s.epsilon.key := by
      simpa [Double.numLe, hepsilon, hzero] using hpositive
    have hdistance : (d.sub d).abs.key = 0 := by
      rw [Double.key_abs, ← Double.pattern_abs, Double.pattern_abs_sub hd hd, Int.sub_self, Int.natAbs_zero,
        Double.roundUnits_zero]
      rfl
    simp [Double.numLt, Double.isNaN_abs_sub hd hd, hepsilon, hdistance, hkey]
  · rw [Double.numEq_of_isFinite hd hd, beq_self_eq_true]

/-- Different integers of 32 bits which the semantics take for one number when one of them is a double. -/
def Blurs (x y : Value) : Prop :=
  x.type = .int32 ∧ y.type = .int32 ∧ x ≠ y ∧ s.numbersEqual x.toDouble y.toDouble = true

/-- The exact semantics blur nothing, and neither do approximate ones with a small epsilon. -/
theorem not_blurs (hs : s.approximate = true → s.epsilon.numLe (Double.ofInt 1) = true) : ¬ s.Blurs x y := by
  rintro ⟨hx, hy, hne, hequal⟩
  obtain ⟨m, rfl⟩ := Value.exists_int32 hx
  obtain ⟨n, rfl⟩ := Value.exists_int32 hy
  have hm := natAbs_toInt_lt m
  have hn := natAbs_toInt_lt n
  have hmn : m ≠ n := fun heq => hne (congrArg Value.int32 heq)
  rw [Value.toDouble_int32, Value.toDouble_int32, numbersEqual] at hequal
  split at hequal
  · rename_i happrox
    have hsmall := hs happrox
    have hfar := Double.one_le_abs_sub hm hn fun heq => hmn (Int32.toInt_inj.mp heq)
    simp only [Double.numLe, Double.numLt, Bool.and_eq_true, decide_eq_true_eq] at hsmall hequal
    omega
  · rw [Double.numEq_of_isFinite (Double.isFinite_ofInt hm) (Double.isFinite_ofInt hn), beq_iff_eq] at hequal
    exact hmn (Value.key_int32_inj.mp hequal)

end Semantics

/-! ### Strict equality -/

theorem Value.withoutNegativeZero_int32 (n : Int32) : (int32 n).withoutNegativeZero = int32 n := by
  refine if_neg fun heq => ?_
  rw [negativeZero_eq] at heq
  cases heq

theorem Value.withoutNegativeZero_double (d : FiniteDouble) :
    ∃ e : FiniteDouble, (double d).withoutNegativeZero = double e ∧ d.val.key = e.val.key := by
  unfold withoutNegativeZero
  split
  · rename_i heq
    rw [negativeZero_eq] at heq
    obtain rfl := Value.double.inj heq
    exact ⟨_, positiveZero_eq, by decide⟩
  · exact ⟨d, rfl, rfl⟩

namespace Heap

/-- How finite numbers are compared. -/
theorem strictEquals_finite (hx : x.isFiniteNumber = true) (hy : y.isFiniteNumber = true) :
    h.strictEquals x y = .ok (if x.type = .int32 ∧ y.type = .int32 then decide (x = y)
      else h.semantics.numbersEqual x.toDouble y.toDouble) := by
  cases x with
  | int32 m =>
    have hm := Double.isFinite_ofInt (natAbs_toInt_lt m)
    cases y with
    | int32 n =>
      rw [strictEquals, Value.withoutNegativeZero_int32, Value.withoutNegativeZero_int32, if_pos ⟨rfl, rfl⟩]
      by_cases hmn : Value.int32 m = .int32 n
      · rw [hmn, decide_eq_true rfl]
        exact sameValue_self _
      · rw [decide_eq_false hmn]
        exact if_neg hmn
    | double e =>
      obtain ⟨e', he', hkey⟩ := Value.withoutNegativeZero_double e
      rw [strictEquals, Value.withoutNegativeZero_int32, he', if_neg (fun hint => nomatch hint.2)]
      refine congrArg Except.ok ((h.semantics.numbersEqual_comm e'.isFinite hm).trans ?_)
      exact h.semantics.numbersEqual_congr hm e'.isFinite hm e.isFinite rfl hkey.symm
    | _ => cases hy
  | double d =>
    obtain ⟨d', hd', hkey⟩ := Value.withoutNegativeZero_double d
    cases y with
    | int32 n =>
      have hn := Double.isFinite_ofInt (natAbs_toInt_lt n)
      rw [strictEquals, Value.withoutNegativeZero_int32, hd', if_neg (fun hint => nomatch hint.1)]
      exact congrArg Except.ok (h.semantics.numbersEqual_congr d'.isFinite hn d.isFinite hn hkey.symm rfl)
    | double e =>
      obtain ⟨e', he', hkey'⟩ := Value.withoutNegativeZero_double e
      rw [strictEquals, hd', he', if_neg (fun hint => nomatch hint.1)]
      exact congrArg Except.ok
        (h.semantics.numbersEqual_congr d'.isFinite e'.isFinite d.isFinite e.isFinite hkey.symm hkey'.symm)
    | _ => cases hy
  | _ => cases hx

/-- Finite numbers are equal as the semantics say, unless the semantics blur them. -/
theorem strictEquals_eq_true (hvalid : h.semantics.isValid = true) (hx : x.isFiniteNumber = true)
    (hy : y.isFiniteNumber = true) :
    h.strictEquals x y = .ok true ↔
      h.semantics.numbersEqual x.toDouble y.toDouble = true ∧ ¬ h.semantics.Blurs x y := by
  rw [strictEquals_finite hx hy, Except.ok.injEq]
  split
  · rename_i hint
    rw [decide_eq_true_iff]
    constructor
    · rintro rfl
      exact ⟨h.semantics.numbersEqual_self hvalid (x.isFinite_toDouble hx), fun hblurs => hblurs.2.2.1 rfl⟩
    · rintro ⟨hequal, hblurs⟩
      by_contra hne
      exact hblurs ⟨hint.1, hint.2, hne, hequal⟩
  · rename_i hint
    exact ⟨fun hequal => ⟨hequal, fun hblurs => hint ⟨hblurs.1, hblurs.2.1⟩⟩, And.left⟩

end Heap

/-! ### Loose equality -/

theorem looseEqualsWithin_numeric (fuel : Nat) (hx : x.isNumeric = true) (hy : y.isNumeric = true) :
    looseEqualsWithin (fuel + 1) x y = HeapM.ask (·.strictEquals x y) := by
  have hx' : x.undefinedIfNone = x := by cases x <;> first | rfl | cases hx
  have hy' : y.undefinedIfNone = y := by cases y <;> first | rfl | cases hy
  simp [looseEqualsWithin, hx', hy', hx, hy]

theorem runOn_looseEquals_numeric (h : Heap) (hx : x.isNumeric = true) (hy : y.isNumeric = true) :
    (looseEquals x y).runOn h = (h.strictEquals x y, h) := by
  show (looseEqualsWithin (h.objects.size + 3 + 1) x y).runOn h = _
  rw [looseEqualsWithin_numeric _ hx hy, runOn_ask]

/-! ### Representations -/

section Representations
variable {a a' b b' : Value}

theorem not_blurs_of_not_finite (s : Semantics) (hnot : ¬ (x.isFiniteNumber = true ∧ y.isFiniteNumber = true)) :
    ¬ s.Blurs x y := by
  rintro ⟨hx, hy, -⟩
  obtain ⟨m, rfl⟩ := Value.exists_int32 hx
  obtain ⟨n, rfl⟩ := Value.exists_int32 hy
  exact hnot ⟨rfl, rfl⟩

/-- Infinities and what is no number have one representation, and no finite number is equal to them. -/
theorem strictEquals_sameNumber_of_not_finite (h : Heap) (ha : SameNumber a a') (hb : SameNumber b b')
    (hnot : ¬ (a.isFiniteNumber = true ∧ b.isFiniteNumber = true)) :
    h.strictEquals a b = h.strictEquals a' b' := by
  rcases ha.eq_or_finite with rfl | ⟨hafin, hafin'⟩ <;> rcases hb.eq_or_finite with rfl | ⟨hbfin, hbfin'⟩
  · rfl
  · have hother : a.isFiniteNumber = false := Bool.eq_false_iff.mpr fun hafin => hnot ⟨hafin, hbfin⟩
    rw [(strictEquals_number_other hbfin hother).2, (strictEquals_number_other hbfin' hother).2]
  · have hother : b.isFiniteNumber = false := Bool.eq_false_iff.mpr fun hbfin => hnot ⟨hafin, hbfin⟩
    rw [(strictEquals_number_other hafin hother).1, (strictEquals_number_other hafin' hother).1]
  · exact absurd ⟨hafin, hbfin⟩ hnot

theorem SameNumber.isFiniteNumber_eq (hab : SameNumber a b) : a.isFiniteNumber = b.isFiniteNumber := by
  rcases hab.eq_or_finite with rfl | ⟨ha, hb⟩
  · rfl
  · rw [ha, hb]

/-- The representation makes a difference just when the semantics blur one of the pairs alone. -/
theorem strictEquals_sameNumber_iff (hvalid : h.semantics.isValid = true) (ha : SameNumber a a')
    (hb : SameNumber b b') :
    h.strictEquals a b = h.strictEquals a' b' ↔ (h.semantics.Blurs a b ↔ h.semantics.Blurs a' b') := by
  by_cases hfin : a.isFiniteNumber = true ∧ b.isFiniteNumber = true
  · have hfin' : a'.isFiniteNumber = true ∧ b'.isFiniteNumber = true := by
      rwa [← ha.isFiniteNumber_eq, ← hb.isFiniteNumber_eq]
    have hsame : h.strictEquals a b = h.strictEquals a' b' ↔
        (h.strictEquals a b = .ok true ↔ h.strictEquals a' b' = .ok true) := by
      rw [strictEquals_finite hfin.1 hfin.2, strictEquals_finite hfin'.1 hfin'.2, Except.ok.injEq, Except.ok.injEq,
        Except.ok.injEq, ← Bool.eq_iff_iff]
    rw [hsame, strictEquals_eq_true hvalid hfin.1 hfin.2, strictEquals_eq_true hvalid hfin'.1 hfin'.2,
      ← ha.toDouble_eq, ← hb.toDouble_eq]
    -- Both pairs are of the same doubles, so they are as far apart.
    by_cases hequal : h.semantics.numbersEqual a.toDouble b.toDouble = true
    · rw [and_iff_right hequal, and_iff_right hequal, not_iff_not]
    · have hblurs : ¬ h.semantics.Blurs a b := fun hblurs => hequal hblurs.2.2.2
      have hblurs' : ¬ h.semantics.Blurs a' b' := fun hblurs => by
        rw [ha.toDouble_eq, hb.toDouble_eq] at hequal
        exact hequal hblurs.2.2.2
      exact iff_of_true (iff_of_false (fun hand => hequal hand.1) fun hand => hequal hand.1)
        (iff_of_false hblurs hblurs')
  · have hfin' : ¬ (a'.isFiniteNumber = true ∧ b'.isFiniteNumber = true) := by
      rwa [← ha.isFiniteNumber_eq, ← hb.isFiniteNumber_eq]
    exact iff_of_true (strictEquals_sameNumber_of_not_finite h ha hb hfin)
      (iff_of_false (not_blurs_of_not_finite _ hfin) (not_blurs_of_not_finite _ hfin'))

end Representations

/-- Under valid semantics numbers are equal in one representation just when they are in another, unless the
semantics blur the integers of one pair and not those of the other. Approximate semantics compare finite
numbers by their distance, but two integers of 32 bits by what they are; with an epsilon of at most one, and
under exact semantics, that is no difference. -/
theorem strictEquals_representation (h : Heap) (hvalid : h.semantics.isValid = true) (a a' b b' : Value)
    (ha : SameNumber a a') (hb : SameNumber b b') :
    (h.strictEquals a b = h.strictEquals a' b' ↔ (h.semantics.Blurs a b ↔ h.semantics.Blurs a' b')) ∧
    (looseEquals a b).runOn h = (h.strictEquals a b, h) ∧
    (looseEquals a' b').runOn h = (h.strictEquals a' b', h) ∧
    (h.semantics.approximate = true → a.isFiniteNumber = true → b.isFiniteNumber = true →
      h.strictEquals a b = .ok (if a.type = .int32 ∧ b.type = .int32 then decide (a = b)
        else (a.toDouble.sub b.toDouble).abs.numLt h.semantics.epsilon)) ∧
    ((h.semantics.approximate = true → h.semantics.epsilon.numLe (Double.ofInt 1) = true) →
      h.strictEquals a b = h.strictEquals a' b') := by
  have hiff := strictEquals_sameNumber_iff hvalid ha hb
  refine ⟨hiff, runOn_looseEquals_numeric h ha.left hb.left, runOn_looseEquals_numeric h ha.right hb.right,
    fun happrox hafin hbfin => ?_, fun hsmall => ?_⟩
  · rw [strictEquals_finite hafin hbfin, Semantics.numbersEqual, if_pos happrox]
  · exact hiff.mpr (iff_of_false (h.semantics.not_blurs hsmall) (h.semantics.not_blurs hsmall))

/-- A heap whose semantics take numbers for equal that are less than two apart. -/
def blurring : Heap := { semantics := { epsilon := Double.ofInt 2 } }

theorem strictEquals_representation_blurring :
    blurring.semantics.isValid = true ∧ SameNumber (.int32 1) (.ofDouble (Double.ofInt 1)) ∧
    blurring.strictEquals (.int32 1) (.ofDouble ⟨0x4004000000000000⟩) =
      blurring.strictEquals (.ofDouble (Double.ofInt 1)) (.ofDouble ⟨0x4004000000000000⟩) := by
  have hvalid : blurring.semantics.isValid = true := by decide +kernel
  have hone : SameNumber (.int32 1) (.ofDouble (Double.ofInt 1)) := .int32 1
  have hother : SameNumber (.ofDouble ⟨0x4004000000000000⟩) (.ofDouble ⟨0x4004000000000000⟩) :=
    .refl (Value.isNumeric_ofDouble _)
  obtain ⟨hiff, -⟩ := strictEquals_representation blurring hvalid _ _ _ _ hone hother
  exact ⟨hvalid, hone, hiff.mpr (iff_of_false (fun hblurs => nomatch hblurs.2.1) fun hblurs => nomatch hblurs.2.1)⟩

/-- The integers one and two are equal as soon as one of them is a double. -/
theorem strictEquals_blurring :
    blurring.semantics.isValid = true ∧ SameNumber (.int32 1) (.ofDouble (Double.ofInt 1)) ∧
    blurring.strictEquals (.int32 1) (.int32 2) = .ok false ∧
    blurring.strictEquals (.ofDouble (Double.ofInt 1)) (.int32 2) = .ok true ∧
    ((Double.ofInt 1).sub (Double.ofInt 2)).abs.numLt blurring.semantics.epsilon = true :=
  ⟨by decide +kernel, .int32 1, by decide +kernel, by decide +kernel, by decide +kernel⟩

end ScriptCore
