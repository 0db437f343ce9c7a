import ScriptCore.Double.Integers
import ScriptCore.Proofs.Equalities
import ScriptCore.Proofs.Results

/-! Arithmetic does not see how a number is represented.

An integer of 32 bits and the double of its value are the same number (`SameNumber`), and each operation gives
the same number for either. The reason is the same for all five: an operation is a function of the doubles of
its operands, and what it does with two integers of 32 bits directly is what that function gives for their
doubles. -/
namespace ScriptCore

open Heap

/-! ### Numbers and their doubles -/

namespace Value

theorem ofDouble_of_isFinite {d : Double} (hd : d.isFinite = true) : ofDouble d = double ⟨d, hd⟩ :=
  dif_pos hd

theorem toDouble_ofDouble_of_isFinite {d : Double} (hd : d.isFinite = true) : (ofDouble d).toDouble = d := by
  rw [ofDouble_of_isFinite hd]
  rfl

theorem isFinite_toDouble_eq {v : Value} (hv : v.isNumeric = true) :
    v.toDouble.isFinite = v.isFiniteNumber := by
  cases v with
  | int32 n => exact isFinite_toDouble rfl
  | double d => exact d.isFinite
  | nan => decide
  | infinity sign => cases sign <;> decide
  | _ => cases hv

/-- Among numbers only `nan` is no number. -/
theorem isNaN_toDouble {v : Value} (hv : v.isNumeric = true) : v.toDouble.isNaN = decide (v = nan) := by
  cases v with
  | int32 n => exact Double.isNaN_of_isFinite (isFinite_toDouble rfl)
  | double d => exact Double.isNaN_of_isFinite d.isFinite
  | nan => rfl
  | infinity sign => cases sign <;> rfl
  | _ => cases hv

/-- Numbers that are no integers of 32 bits are known by their doubles. -/
theorem ofDouble_toDouble {v : Value} (hv : v.isNumeric = true) (hint : v.type ≠ .int32) :
    ofDouble v.toDouble = v := by
  cases v with
  | int32 n => exact absurd rfl hint
  | double d => exact ofDouble_of_isFinite d.isFinite
  | nan => rfl
  | infinity sign => cases sign <;> rfl
  | _ => cases hv

theorem exists_int32 {v : Value} (hv : v.type = .int32) : ∃ n, v = int32 n := by
  cases v with
  | int32 n => exact ⟨n, rfl⟩
  | _ => cases hv

end Value

/-- Two values are one number. -/
structure SameNumber (a b : Value) : Prop where
  left : a.isNumeric = true
  right : b.isNumeric = true
  toDouble_eq : a.toDouble = b.toDouble

namespace SameNumber

variable {a b c : Value}

theorem refl (ha : a.isNumeric = true) : SameNumber a a := ⟨ha, ha, rfl⟩

theorem symm (hab : SameNumber a b) : SameNumber b a := ⟨hab.right, hab.left, hab.toDouble_eq.symm⟩

theorem trans (hab : SameNumber a b) (hbc : SameNumber b c) : SameNumber a c :=
  ⟨hab.left, hbc.right, hab.toDouble_eq.trans hbc.toDouble_eq⟩

/-- An integer and the double of its value. -/
theorem int32 (n : Int32) : SameNumber (.int32 n) (.ofDouble (Double.ofInt n.toInt)) :=
  ⟨rfl, Value.isNumeric_ofDouble _,
    (Value.toDouble_ofDouble_of_isFinite (Double.isFinite_ofInt (natAbs_toInt_lt n))).symm⟩

/-- One number has two forms only if it is finite. -/
theorem eq_or_finite (hab : SameNumber a b) :
    a = b ∨ a.isFiniteNumber = true ∧ b.isFiniteNumber = true := by
  have hfinite : a.isFiniteNumber = b.isFiniteNumber := by
    rw [← Value.isFinite_toDouble_eq hab.left, hab.toDouble_eq, Value.isFinite_toDouble_eq hab.right]
  cases ha : a.isFiniteNumber with
  | true => exact .inr ⟨rfl, hfinite.symm.trans ha⟩
  | false =>
    have hint : ∀ v : Value, v.isFiniteNumber = false → v.type ≠ .int32 := by
      intro v hv
      cases v <;> simp_all [Value.isFiniteNumber, Value.type]
    left
    rw [← Value.ofDouble_toDouble hab.left (hint a ha), hab.toDouble_eq,
      Value.ofDouble_toDouble hab.right (hint b (hfinite.symm.trans ha))]

theorem sameValue (hab : SameNumber a b) (h : Heap) : h.sameValue a b = .ok true := by
  rcases hab.eq_or_finite with rfl | ⟨ha, hb⟩
  · exact sameValue_self a
  · rw [sameValue_number ha hb, decide_eq_true hab.toDouble_eq]

end SameNumber

/-! ### Integers of 32 bits -/

theorem int32Of?_cases (n : Int) :
    (∃ k : Int32, k.toInt = n ∧ int32Of? n = some (.int32 k)) ∨ int32Of? n = none := by
  unfold int32Of?
  split
  · rename_i hn
    exact .inl ⟨Int32.ofInt n, Int32.toInt_ofInt_of_le hn.1 hn.2, rfl⟩
  · exact .inr rfl

theorem sameNumber_negativeZero : SameNumber Value.negativeZero (.ofDouble (Double.ofSigned true 0)) := by
  rw [Double.ofSigned_zero]
  exact .refl (Value.isNumeric_ofDouble _)

/-- A result that is kept as an integer of 32 bits if it is one. -/
theorem sameNumber_getD (n : Int) {d : Double} (hd : d = Double.ofInt n) :
    SameNumber ((int32Of? n).getD (.ofDouble d)) (.ofDouble d) := by
  rcases int32Of?_cases n with ⟨k, hk, hsome⟩ | hnone
  · rw [hsome, hd, ← hk]
    exact .int32 k
  · rw [hnone]
    exact .refl (Value.isNumeric_ofDouble d)

/-- A product is negative when one factor is. -/
theorem decide_mul_neg {m n : Int} (hzero : m * n = 0 → 0 ≤ m ∧ 0 ≤ n) :
    (decide (m < 0) != decide (n < 0)) = decide (m * n < 0) := by
  by_cases hm : m < 0 <;> by_cases hn : n < 0
  · have hpos := Int.mul_pos_of_neg_of_neg hm hn
    rw [decide_eq_true hm, decide_eq_true hn, decide_eq_false (by omega)]
    rfl
  · have hpos : 0 < n := by
      rcases Int.lt_or_eq_of_le (Int.not_lt.mp hn) with hpos | rfl
      · exact hpos
      · exact absurd (hzero (Int.mul_zero m)).1 (by omega)
    rw [decide_eq_true hm, decide_eq_false hn, decide_eq_true (Int.mul_neg_of_neg_of_pos hm hpos)]
    rfl
  · have hpos : 0 < m := by
      rcases Int.lt_or_eq_of_le (Int.not_lt.mp hm) with hpos | rfl
      · exact hpos
      · exact absurd (hzero (Int.zero_mul n)).2 (by omega)
    rw [decide_eq_false hm, decide_eq_true hn, decide_eq_true (Int.mul_neg_of_pos_of_neg hpos hn)]
    rfl
  · have hnonneg := Int.mul_nonneg (Int.not_lt.mp hm) (Int.not_lt.mp hn)
    rw [decide_eq_false hm, decide_eq_false hn, decide_eq_false (by omega)]
    rfl

theorem decide_tdiv_neg {m n : Int} (hrest : m.tmod n = 0) (hzero : ¬ (m = 0 ∧ n < 0)) :
    (decide (m < 0) != decide (n < 0)) = decide (m.tdiv n < 0) := by
  have hmul : m.tdiv n * n = m := by
    have h := Int.tdiv_mul_add_tmod m n
    rwa [hrest, Int.add_zero] at h
  have hsign : (decide (m.tdiv n < 0) != decide (n < 0)) = decide (m < 0) := by
    rw [decide_mul_neg, hmul]
    intro hm
    rw [hmul] at hm
    rw [hm, Int.zero_tdiv]
    omega
  rw [← hsign, Bool.bne_assoc, bne_self_eq_false, Bool.bne_false]

/-- A remainder has the sign of the dividend. -/
theorem tmod_sign (m n : Int) : (0 ≤ m → 0 ≤ m.tmod n) ∧ (m < 0 → m.tmod n ≤ 0) := by
  refine ⟨fun hm => Int.tmod_nonneg n hm, fun hm => ?_⟩
  have hneg := Int.tmod_nonneg n (a := -m) (by omega)
  rw [Int.neg_tmod] at hneg
  omega

theorem decide_tmod_neg {m n : Int} (hzero : ¬ (m.tmod n = 0 ∧ m < 0)) :
    decide (m < 0) = decide (m.tmod n < 0) := by
  obtain ⟨hnonneg, hneg⟩ := tmod_sign m n
  rw [decide_eq_decide]
  omega

theorem toInt_ofInt_tmod (x y : Int32) : (Int32.ofInt (x.toInt.tmod y.toInt)).toInt = x.toInt.tmod y.toInt := by
  obtain ⟨hnonneg, hneg⟩ := tmod_sign x.toInt y.toInt
  have hlow := x.le_toInt
  have hhigh := x.toInt_lt
  have habs : (x.toInt.tmod y.toInt).natAbs ≤ x.toInt.natAbs := by
    rw [Int.natAbs_tmod]
    exact Nat.mod_le _ _
  apply Int32.toInt_ofInt_of_le <;> omega

/-! ### Operations -/

theorem subNumbers_sameNumber (a b : Value) :
    SameNumber (subNumbers a b) (.ofDouble (a.toDouble.sub b.toDouble)) := by
  unfold subNumbers
  split
  · rename_i x y
    exact sameNumber_getD _ (Double.sub_ofInt (natAbs_toInt_lt x) (natAbs_toInt_lt y))
  · exact .refl (Value.isNumeric_ofDouble _)

theorem mulNumbers_sameNumber (a b : Value) :
    SameNumber (mulNumbers a b) (.ofDouble (a.toDouble.mul b.toDouble)) := by
  unfold mulNumbers
  split
  · rename_i x y
    have hmul := Double.mul_ofInt (natAbs_toInt_lt x) (natAbs_toInt_lt y)
    rcases int32Of?_cases (x.toInt * y.toInt) with ⟨k, hk, hsome⟩ | hnone
    · simp only [hsome, Value.toDouble_int32, hmul]
      split
      · rename_i hnegative
        have hfactor : x.toInt = 0 ∨ y.toInt = 0 := Int.mul_eq_zero.mp hnegative.1
        have hsign : (decide (x.toInt < 0) != decide (y.toInt < 0)) = true := by
          rw [bne_iff_ne, ne_eq, decide_eq_decide]
          omega
        rw [hsign, hnegative.1, Int.natAbs_zero]
        exact sameNumber_negativeZero
      · rename_i hother
        rw [decide_mul_neg fun hzero => by omega, ← Double.ofInt_eq, ← hk]
        exact .int32 k
    · rw [hnone]
      exact .refl (Value.isNumeric_ofDouble _)
  · exact .refl (Value.isNumeric_ofDouble _)

/-- The quotient of two doubles as a number. -/
def divideDoubles (x y : Double) : Value := if y.isZero then divideByZero x else .ofDouble (x.div y)

theorem divNumbers_sameNumber (a b : Value) :
    SameNumber (divNumbers a b) (divideDoubles a.toDouble b.toDouble) := by
  unfold divNumbers divideDoubles
  rw [Value.isZero_eq]
  split
  · exact .refl (isNumeric_divideByZero _)
  rename_i hdivisor
  split
  · rename_i x y
    rw [Value.toDouble_int32, Double.isZero_ofInt (natAbs_toInt_lt y), decide_eq_true_iff] at hdivisor
    have hdiv := Double.div_ofInt (natAbs_toInt_lt x) (natAbs_toInt_lt y) hdivisor
    simp only [Value.toDouble_int32]
    split
    · -- A zero divided by a negative number.
      rename_i hnegative
      rw [hdiv (by rw [hnegative.1, Int.zero_tmod]), hnegative.1, Int.zero_tdiv, Int.natAbs_zero,
        decide_eq_true hnegative.2]
      exact sameNumber_negativeZero
    · rename_i hother
      split
      · rename_i hrest
        refine sameNumber_getD _ ?_
        rw [hdiv hrest, decide_tdiv_neg hrest hother, ← Double.ofInt_eq]
      · rw [Option.getD_none]
        exact .refl (Value.isNumeric_ofDouble _)
  · exact .refl (Value.isNumeric_ofDouble _)

/-- The remainder of two doubles as a number. -/
def remainderDoubles (x y : Double) : Value := if y.isZero then divideByZero x else .ofDouble (x.rem y)

theorem remNumbers_sameNumber (a b : Value) :
    SameNumber (remNumbers a b) (remainderDoubles a.toDouble b.toDouble) := by
  unfold remNumbers remainderDoubles
  rw [Value.isZero_eq]
  split
  · exact .refl (isNumeric_divideByZero _)
  rename_i hdivisor
  split
  · rename_i x y
    rw [Value.toDouble_int32, Double.isZero_ofInt (natAbs_toInt_lt y), decide_eq_true_iff] at hdivisor
    simp only [Value.toDouble_int32, Double.rem_ofInt (natAbs_toInt_lt x) (natAbs_toInt_lt y) hdivisor]
    split
    · rename_i hnegative
      rw [hnegative.1, decide_eq_true hnegative.2, Int.natAbs_zero]
      exact sameNumber_negativeZero
    · rename_i hother
      have hsmall := SameNumber.int32 (Int32.ofInt (x.toInt.tmod y.toInt))
      rwa [toInt_ofInt_tmod, Double.ofInt_eq, ← decide_tmod_neg hother] at hsmall
  · exact .refl (Value.isNumeric_ofDouble _)

/-! ### Sums -/

/-- Integers are far from the ends of the range, so that their sum is not cut off there. -/
theorem addDoubles_ofInt {m n : Int} (hm : m.natAbs < 2 ^ 53) (hn : n.natAbs < 2 ^ 53)
    (hsum : (m + n).natAbs < 2 ^ 53) :
    addDoubles (Double.ofInt m) (Double.ofInt n) =
      if m + n = 0 then Value.zero else .ofDouble (Double.ofInt (m + n)) := by
  obtain ⟨hmbelow, hmabove⟩ := Double.between_largest_ofInt hm
  obtain ⟨hnbelow, hnabove⟩ := Double.between_largest_ofInt hn
  have htiny : (Double.ofInt (m + n)).abs.numLt Double.smallest = decide (m + n = 0) := by
    rw [Double.abs_numLt_smallest (Double.isNaN_of_isFinite (Double.isFinite_ofInt hsum)),
      Double.isZero_ofInt hsum]
  simp only [addDoubles, hmbelow, hmabove, hnbelow, hnabove, Bool.false_and, Bool.and_false, Bool.or_self,
    Bool.false_eq_true, if_false, Double.add_ofInt hm hn, htiny, Double.isNegative_ofInt hsum]
  by_cases hzero : m + n = 0
  · simp [hzero]
  · simp [hzero]

/-- The sum of two doubles as a number. -/
def sumDoubles (x y : Double) : Value := addNumbers (.ofDouble x) (.ofDouble y)

theorem addNumbers_int32_left (x : Int32) {b : Value} (hb : b.type ≠ .int32) :
    addNumbers (.int32 x) b = addNumbers (.ofDouble (Double.ofInt x.toInt)) b := by
  rw [Value.ofDouble_of_isFinite (Double.isFinite_ofInt (natAbs_toInt_lt x))]
  cases b with
  | int32 y => exact absurd rfl hb
  | _ => rfl

theorem addNumbers_int32_right {a : Value} (ha : a.type ≠ .int32) (y : Int32) :
    addNumbers a (.int32 y) = addNumbers a (.ofDouble (Double.ofInt y.toInt)) := by
  rw [Value.ofDouble_of_isFinite (Double.isFinite_ofInt (natAbs_toInt_lt y))]
  cases a with
  | int32 x => exact absurd rfl ha
  | _ => rfl

theorem addNumbers_int32_sameNumber (x y : Int32) :
    SameNumber (addNumbers (.int32 x) (.int32 y))
      (sumDoubles (Double.ofInt x.toInt) (Double.ofInt y.toInt)) := by
  have hx := natAbs_toInt_lt x
  have hy := natAbs_toInt_lt y
  have hsum : (x.toInt + y.toInt).natAbs < 2 ^ 53 := by
    have hx' := x.le_toInt
    have hy' := y.le_toInt
    have hx'' := x.toInt_lt
    have hy'' := y.toInt_lt
    omega
  have hdoubles : sumDoubles (Double.ofInt x.toInt) (Double.ofInt y.toInt) =
      addDoubles (Double.ofInt x.toInt) (Double.ofInt y.toInt) := by
    rw [sumDoubles, Value.ofDouble_of_isFinite (Double.isFinite_ofInt hx),
      Value.ofDouble_of_isFinite (Double.isFinite_ofInt hy)]
    rfl
  have hdirect : addNumbers (.int32 x) (.int32 y) = (int32Of? (x.toInt + y.toInt)).getD
      (.ofDouble ((Double.ofInt x.toInt).add (Double.ofInt y.toInt))) := rfl
  have hexact := sameNumber_getD (x.toInt + y.toInt) (Double.add_ofInt hx hy)
  rw [← hdirect, Double.add_ofInt hx hy] at hexact
  rw [hdoubles, addDoubles_ofInt hx hy hsum]
  split
  · rename_i hzero
    rw [hzero] at hexact
    exact hexact.trans (SameNumber.int32 0).symm
  · exact hexact

theorem addNumbers_sameNumber {a b : Value} (ha : a.isNumeric = true) (hb : b.isNumeric = true) :
    SameNumber (addNumbers a b) (sumDoubles a.toDouble b.toDouble) := by
  by_cases hleft : a.type = .int32 <;> by_cases hright : b.type = .int32
  · obtain ⟨x, rfl⟩ := Value.exists_int32 hleft
    obtain ⟨y, rfl⟩ := Value.exists_int32 hright
    exact addNumbers_int32_sameNumber x y
  · obtain ⟨x, rfl⟩ := Value.exists_int32 hleft
    rw [addNumbers_int32_left x hright, sumDoubles, Value.ofDouble_toDouble hb hright]
    exact .refl (isNumeric_addNumbers _ _)
  · obtain ⟨y, rfl⟩ := Value.exists_int32 hright
    rw [addNumbers_int32_right hleft y, sumDoubles, Value.ofDouble_toDouble ha hleft]
    exact .refl (isNumeric_addNumbers _ _)
  · rw [sumDoubles, Value.ofDouble_toDouble ha hleft, Value.ofDouble_toDouble hb hright]
    exact .refl (isNumeric_addNumbers a b)

/-! ### All operations -/

def numberOperations : List (Value → Value → Value) :=
  [addNumbers, subNumbers, mulNumbers, divNumbers, remNumbers]

/-- An operation that is a function of doubles gives one number for all forms of its operands. -/
theorem SameNumber.of_doubles {op : Value → Value → Value} {f : Double → Double → Value}
    (hop : ∀ a b, a.isNumeric = true → b.isNumeric = true → SameNumber (op a b) (f a.toDouble b.toDouble))
    {a a' b b' : Value} (ha : SameNumber a a') (hb : SameNumber b b') : SameNumber (op a b) (op a' b') := by
  have hleft := hop a b ha.left hb.left
  rw [ha.toDouble_eq, hb.toDouble_eq] at hleft
  exact hleft.trans (hop a' b' ha.right hb.right).symm

/-- Arithmetic gives the same number, down to the sign of a zero, when integers of 32 bits among its operands
are replaced by their doubles or doubles by their integers (`SameNumber.int32`). -/
theorem numberOperation_sameNumber (op : Value → Value → Value) (hop : op ∈ numberOperations)
    (a a' b b' : Value) (ha : SameNumber a a') (hb : SameNumber b b') (h : Heap) :
    SameNumber (op a b) (op a' b') ∧ h.sameValue (op a b) (op a' b') = .ok true := by
  have hsame : SameNumber (op a b) (op a' b') := by
    simp only [numberOperations, List.mem_cons, List.not_mem_nil, or_false] at hop
    rcases hop with rfl | rfl | rfl | rfl | rfl
    · exact .of_doubles (f := sumDoubles) (fun _ _ => addNumbers_sameNumber) ha hb
    · exact .of_doubles (f := fun x y => .ofDouble (x.sub y)) (fun a b _ _ => subNumbers_sameNumber a b) ha hb
    · exact .of_doubles (f := fun x y => .ofDouble (x.mul y)) (fun a b _ _ => mulNumbers_sameNumber a b) ha hb
    · exact .of_doubles (f := divideDoubles) (fun a b _ _ => divNumbers_sameNumber a b) ha hb
    · exact .of_doubles (f := remainderDoubles) (fun a b _ _ => remNumbers_sameNumber a b) ha hb
  exact ⟨hsame, hsame.sameValue h⟩

/-- The quotient of the least integer and -1 does not have 32 bits. -/
theorem numberOperation_sameNumber_least :
    SameNumber (.int32 Int32.minValue) (.ofDouble (Double.ofInt (-2 ^ 31))) ∧
    SameNumber (.int32 (-1)) (.ofDouble (Double.ofInt (-1))) ∧
    SameNumber (divNumbers (.int32 Int32.minValue) (.int32 (-1)))
      (divNumbers (.ofDouble (Double.ofInt (-2 ^ 31))) (.ofDouble (Double.ofInt (-1)))) ∧
    ({} : Heap).sameValue (divNumbers (.int32 Int32.minValue) (.int32 (-1)))
      (divNumbers (.ofDouble (Double.ofInt (-2 ^ 31))) (.ofDouble (Double.ofInt (-1)))) = .ok true := by
  have hleast : SameNumber (.int32 Int32.minValue) (.ofDouble (Double.ofInt (-2 ^ 31))) := .int32 Int32.minValue
  have hminus : SameNumber (.int32 (-1)) (.ofDouble (Double.ofInt (-1))) := .int32 (-1)
  exact ⟨hleast, hminus,
    numberOperation_sameNumber divNumbers (by simp [numberOperations]) _ _ _ _ hleast hminus {}⟩

end ScriptCore
