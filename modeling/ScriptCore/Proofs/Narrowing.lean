import ScriptCore.Double.Nearest
import ScriptCore.Proofs.ClampedIntegers
import ScriptCore.Proofs.FiniteTexts

/-! Numbers held as small integers lose nothing.

A double becomes an integer of 32 bits exactly when it is the double of one, `ofNumber_eq_int32_iff`, and
from what it becomes it is found again, `number?_ofNumber`. So no conversion can tell a number by the form
it is held in: integer parts and strings are functions of the double alone. The cast that decides whether an
integer fits may be any that gives the integer part of what is finite and fits, `Double.CastsInt32`. -/
namespace ScriptCore

open Heap HeapM

/-! ### Integers among doubles -/

namespace Double

/-- A cast to integers of 32 bits gives the integer part where it fits and nothing elsewhere. -/
def CastsInt32 (cast : Double → Option Int32) : Prop :=
  ∀ d n, cast d = some n ↔ d.isFinite = true ∧ d.integerPart = n.toInt

/-- The cast in terms of the range it looks at. -/
def toInt32? (d : Double) : Option Int32 := (d.integerIn? (-2 ^ 31) (2 ^ 31 - 1)).map Int32.ofInt

theorem castsInt32_toInt32? : CastsInt32 toInt32? :=
  casts_integerIn? Int32.ofInt_toInt (fun _ hlow hhigh => Int32.toInt_ofInt_of_le hlow (by omega)) fun n => by
    have hlow := n.le_toInt
    have hhigh := n.toInt_lt
    omega

/-- The integers are the doubles that are whole, but for a negative zero. -/
theorem eq_ofInt_of_units {d : Double} {k : Int} (hunits : d.units = k * one) (hk : k.natAbs < 2 ^ 53)
    (hzero : d ≠ zero true) : d = ofInt k := by
  refine eq_of_key_eq ((key_eq_iff _ _).mpr (by rw [hunits, units_ofInt hk])) ?_
  rw [isNegative_ofInt hk]
  by_cases hk0 : k = 0
  · have hpattern : d.pattern = 0 := by
      have hiszero := isZero_of_units hunits
      rw [decide_eq_true hk0] at hiszero
      exact of_decide_eq_true hiszero
    rw [decide_eq_false (by omega)]
    refine Bool.eq_false_iff.mpr fun hneg => hzero ?_
    rw [← ofPattern_pattern d, hneg, hpattern, zero]
  · exact isNegative_of_units hunits hk0

theorem ofInt_ne_zero_true {k : Int} (hk : k.natAbs < 2 ^ 53) : ofInt k ≠ zero true := fun heq => by
  have hzero := isZero_ofInt hk
  have hneg := isNegative_ofInt hk
  rw [heq, show (zero true).isZero = true by decide] at hzero
  rw [heq, show (zero true).isNegative = true by decide] at hneg
  have hk0 := of_decide_eq_true hzero.symm
  have hlt := of_decide_eq_true hneg.symm
  omega

/-- The doubles of integers of 32 bits. -/
theorem exists_eq_ofInt_iff (d : Double) : (∃ n : Int32, d = ofInt n.toInt) ↔
    d.isFinite = true ∧ d ≠ zero true ∧ ∃ k : ℤ, -2 ^ 31 ≤ k ∧ k < 2 ^ 31 ∧ d.toRat = k := by
  constructor
  · rintro ⟨n, rfl⟩
    have hn := natAbs_toInt_lt n
    exact ⟨isFinite_ofInt hn, ofInt_ne_zero_true hn, n.toInt, n.le_toInt, n.toInt_lt,
      toRat_of_units (units_ofInt hn)⟩
  · rintro ⟨-, hzero, k, hlow, hhigh, hk⟩
    refine ⟨Int32.ofInt k, ?_⟩
    rw [Int32.toInt_ofInt_of_le hlow hhigh]
    exact eq_ofInt_of_units (units_of_toRat hk) (by omega) hzero

end Double

/-! ### What a double becomes -/

namespace Value

theorem number?_of_isNumeric {v : Value} (hv : v.isNumeric = true) : v.number? = some v.toDouble := by
  cases v with
  | int32 _ | double _ | nan | infinity _ => rfl
  | _ => cases hv

theorem number?_ofNumber {d : Double} (hd : d.isNaN = false) : (ofNumber d).number? = some d := by
  by_cases hfinite : d.isFinite = true
  · rw [number?_of_isNumeric (isNumeric_ofNumber d), (ofNumber_of_isFinite hfinite).2]
  · rw [Double.eq_infinity hd (Bool.eq_false_iff.mpr hfinite), ofNumber_infinity]
    cases d.isNegative <;> decide

theorem ofNumber_of_isNaN {d : Double} (hd : d.isNaN = true) : ofNumber d = nan := by
  have hfinite : ¬d.isFinite = true := fun hfinite => by
    rw [Double.isNaN_of_isFinite hfinite] at hd
    cases hd
  rw [ofNumber_of_not_isFinite (Bool.eq_false_iff.mpr hfinite), ofDouble, dif_neg hfinite, if_pos hd]

theorem ofNumber_eq_int32_iff {d : Double} {n : Int32} : ofNumber d = int32 n ↔ d = Double.ofInt n.toInt := by
  constructor
  · intro heq
    cases hd : d.isNaN with
    | true => cases (ofNumber_of_isNaN hd).symm.trans heq
    | false => exact Option.some.inj ((number?_ofNumber hd).symm.trans (congrArg number? heq))
  · rintro rfl
    exact ofNumber_ofInt n

theorem ofNumber_inj {d e : Double} (hd : d.isNaN = false) (he : e.isNaN = false)
    (heq : ofNumber d = ofNumber e) : d = e := by
  have hnumber := number?_ofNumber hd
  rw [heq, number?_ofNumber he] at hnumber
  exact (Option.some.inj hnumber).symm

/-- `ofNumber` with any cast to integers of 32 bits. -/
def ofNumberBy (cast : Double → Option Int32) (d : Double) : Value :=
  if d.isZero && d.isNegative then negativeZero
  else if d.isWhole then
    match cast d with
    | some n => int32 n
    | .none => ofDouble d
  else ofDouble d

theorem ofNumberBy_eq {cast : Double → Option Int32} (hcast : Double.CastsInt32 cast) :
    ofNumberBy cast = ofNumber := by
  obtain rfl : cast = Double.toInt32? :=
    funext fun d => Option.ext fun n => (hcast d n).trans (Double.castsInt32_toInt32? d n).symm
  funext d
  rw [ofNumberBy, ofNumber, Double.toInt32?]
  cases d.integerIn? (-2 ^ 31) (2 ^ 31 - 1) <;> rfl

end Value

/-! ### Conversions of numbers -/

theorem runOn_toNumber_numeric {v : Value} (hv : v.isNumeric = true) (h : Heap) :
    (toNumber v).runOn h = (.ok v, h) := by
  cases v with
  | int32 _ | double _ | nan | infinity _ => rfl
  | _ => cases hv

/-- The integer part of a number is that of its double. -/
theorem Value.truncated_eq {v : Value} (hv : v.isNumeric = true) (hnan : v ≠ .nan) :
    v.truncated = ofNumber v.toDouble.trunc := by
  cases v with
  | int32 n =>
    have hn := natAbs_toInt_lt n
    rw [toDouble_int32, ← Double.eq_trunc_of_isWhole (Double.isFinite_ofInt hn) (Double.isWhole_ofInt hn),
      ofNumber_ofInt]
    rfl
  | double d => rfl
  | infinity sign => cases sign <;> decide
  | nan => exact absurd rfl hnan
  | _ => cases hv

theorem Double.isNaN_trunc {d : Double} (hd : d.isNaN = false) : d.trunc.isNaN = false := by
  by_cases hfinite : d.isFinite = true
  · exact isNaN_of_isFinite (isFinite_trunc hfinite)
  · rwa [trunc, if_neg hfinite]

theorem toStringRef_eq_ofDouble {v : Value} (hv : v.isFiniteNumber = true) :
    toStringRef v = toStringRef (.ofDouble v.toDouble) := by
  cases v with
  | int32 n =>
    have hn := natAbs_toInt_lt n
    rw [Value.toDouble_int32, Value.ofDouble_of_isFinite (Double.isFinite_ofInt hn)]
    exact toStringRef_eq_of_units (Double.units_ofInt hn)
  | double d => exact congrArg toStringRef (Value.ofDouble_of_isFinite d.isFinite).symm
  | _ => cases hv

namespace SameNumber

variable {u v : Value} (huv : SameNumber u v)
include huv

theorem toInteger_eq : toInteger u = toInteger v := by
  rcases huv.eq_or_finite with rfl | ⟨hu, hv⟩
  · rfl
  · have hnan : ∀ w : Value, w.isFiniteNumber = true → w ≠ .nan := by
      rintro w hw rfl
      cases hw
    rw [toInteger_of_isNumeric huv.left, toInteger_of_isNumeric huv.right, Value.truncated_eq huv.left (hnan u hu),
      Value.truncated_eq huv.right (hnan v hv), huv.toDouble_eq]

theorem toStringRef_eq : toStringRef u = toStringRef v := by
  rcases huv.eq_or_finite with rfl | ⟨hu, hv⟩
  · rfl
  · rw [toStringRef_eq_ofDouble hu, toStringRef_eq_ofDouble hv, huv.toDouble_eq]

end SameNumber

/-- A number narrowed is the same number. -/
theorem sameNumber_ofNumber {v : Value} (hv : v.isNumeric = true) : SameNumber v (.ofNumber v.toDouble) := by
  refine ⟨hv, Value.isNumeric_ofNumber _, ?_⟩
  cases v with
  | int32 n => rw [Value.toDouble_int32, Value.ofNumber_ofInt, Value.toDouble_int32]
  | double d => exact (Value.ofNumber_of_isFinite d.isFinite).2.symm
  | infinity sign => cases sign <;> decide
  | nan => decide
  | _ => cases hv

/-- Narrowing loses nothing, and no conversion of a number sees whether it was narrowed. -/
theorem narrowing_lossless {cast : Double → Option Int32} (hcast : Double.CastsInt32 cast) :
    ((∀ d, d.isNaN = false → (Value.ofNumberBy cast d).number? = some d) ∧
      (∀ d, (∃ n, Value.ofNumberBy cast d = .int32 n) ↔ d.isFinite = true ∧ d ≠ Double.zero true ∧
        ∃ k : ℤ, -2 ^ 31 ≤ k ∧ k < 2 ^ 31 ∧ d.toRat = k) ∧
      (∀ d, d.isNaN = true → Value.ofNumberBy cast d = .nan) ∧
      ∀ d e, d.isNaN = false → e.isNaN = false → Value.ofNumberBy cast d = Value.ofNumberBy cast e → d = e) ∧
    Value.ofNumberBy cast = Value.ofNumber ∧
    (∀ (t : Text) d, t.toDouble? = some d → d.isNaN = false → t.toNumber.number? = some d) ∧
    (∀ v, v.isNumeric = true →
      SameNumber v (Value.ofNumberBy cast v.toDouble) ∧ (∀ h, (toNumber v).runOn h = (.ok v, h)) ∧
        (v ≠ .nan → ∃ w, (∀ h, (toInteger v).runOn h = (.ok w, h)) ∧ w.number? = some v.toDouble.trunc)) ∧
    ∀ u v, SameNumber u v → toInteger u = toInteger v ∧ toStringRef u = toStringRef v := by
  rw [Value.ofNumberBy_eq hcast]
  refine ⟨⟨fun d => Value.number?_ofNumber, fun d => ?_, fun d => Value.ofNumber_of_isNaN,
    fun d e => Value.ofNumber_inj⟩, rfl, fun t d ht hd => ?_,
    fun v hv => ⟨sameNumber_ofNumber hv, runOn_toNumber_numeric hv, fun hnan => ?_⟩,
    fun u v huv => ⟨huv.toInteger_eq, huv.toStringRef_eq⟩⟩
  · simp only [Value.ofNumber_eq_int32_iff, Double.exists_eq_ofInt_iff]
  · rw [toNumber_of_toDouble? ht, Value.number?_ofNumber hd]
  · have hnumber : v.toDouble.isNaN = false := by rw [Value.isNaN_toDouble hv, decide_eq_false hnan]
    refine ⟨v.truncated, fun h => by rw [toInteger_of_isNumeric hv]; rfl, ?_⟩
    rw [Value.truncated_eq hv hnan, Value.number?_ofNumber (Double.isNaN_trunc hnumber)]

/-- The ends of the range of small integers, and what lies beyond them. -/
theorem narrowing_lossless_ends :
    Double.CastsInt32 Double.toInt32? ∧
      Value.ofNumberBy Double.toInt32? (Double.ofInt Int32.maxValue.toInt) = .int32 Int32.maxValue ∧
      ¬∃ n, Value.ofNumberBy Double.toInt32? (Double.ofInt (2 ^ 31)) = .int32 n := by
  refine ⟨Double.castsInt32_toInt32?, ?_, fun hint => ?_⟩
  · rw [Value.ofNumberBy_eq Double.castsInt32_toInt32?, Value.ofNumber_ofInt]
  obtain ⟨-, -, k, -, hhigh, hk⟩ := ((narrowing_lossless Double.castsInt32_toInt32?).1.2.1 _).mp hint
  rw [Double.toRat_of_units (Double.units_ofInt (by decide))] at hk
  have hk' : (2 ^ 31 : ℤ) = k := Int.cast_inj.mp hk
  omega

end ScriptCore
