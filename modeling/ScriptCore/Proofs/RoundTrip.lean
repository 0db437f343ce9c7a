import ScriptCore.Double.IntegerPart
import ScriptCore.Proofs.Representations
import ScriptCore.Proofs.Slots
import ScriptCore.Proofs.Writing

/-! Numbers to strings and back.

A number that is held as a value keeps its double (`ofNumber_of_isFinite`), and an integer of 32 bits is found
again (`ofNumber_ofInt`). So whatever the text of a number is read as is what its string is converted to, in any
heap that has room for the string (`readsBack_of_text`). For integers below `1e21`, for infinities and for `nan`
this is the number that was written (`readsBack_of_isPlain`). -/
namespace ScriptCore

open Heap HeapM

/-! ### Numbers as values -/

namespace Value

/-- A number is held as a value that is the same number. -/
theorem ofNumber_of_isFinite {d : Double} (hd : d.isFinite = true) :
    (ofNumber d).isFiniteNumber = true ∧ (ofNumber d).toDouble = d := by
  unfold ofNumber
  split
  · rename_i hzero
    obtain ⟨hpattern, hneg⟩ := Bool.and_eq_true_iff.mp hzero
    rw [← Double.ofPattern_pattern d, hneg, of_decide_eq_true hpattern]
    exact ⟨rfl, rfl⟩
  · rename_i hzero
    split
    · rename_i hwhole
      split
      · rename_i n hinteger
        simp only [Double.integerIn?, Option.ite_none_right_eq_some, Bool.and_eq_true, decide_eq_true_eq,
          Option.some.injEq] at hinteger
        obtain ⟨⟨⟨-, hlow⟩, hhigh⟩, rfl⟩ := hinteger
        refine ⟨rfl, ?_⟩
        have hsame : (Int32.ofInt d.integerPart).toInt = d.integerPart :=
          Int32.toInt_ofInt_of_le (by omega) (by omega)
        rw [toDouble_int32, hsame]
        exact Double.ofInt_integerPart hd (Bool.eq_false_iff.mpr hzero) hwhole
      · rw [ofDouble_of_isFinite hd]
        exact ⟨rfl, rfl⟩
    · rw [ofDouble_of_isFinite hd]
      exact ⟨rfl, rfl⟩

theorem toDouble_zero : zero.toDouble = Double.zero false := by
  rw [zero, toDouble_int32, Int32.toInt_zero, Double.ofInt_eq, Int.natAbs_zero, Double.ofSigned_zero]
  rfl

/-- An integer that has a small representation gets it back. -/
theorem ofNumber_ofInt (n : Int32) : ofNumber (Double.ofInt n.toInt) = int32 n := by
  have hn := natAbs_toInt_lt n
  have hzero : ((Double.ofInt n.toInt).isZero && (Double.ofInt n.toInt).isNegative) = false := by
    rw [Double.isZero_ofInt hn, Double.isNegative_ofInt hn, Bool.and_eq_false_iff, decide_eq_false_iff_not,
      decide_eq_false_iff_not]
    omega
  have hinteger : (Double.ofInt n.toInt).integerIn? (-2 ^ 31) (2 ^ 31 - 1) = some n.toInt := by
    have hlow := n.le_toInt
    have hhigh := n.toInt_lt
    rw [Double.integerIn?, Double.isFinite_ofInt hn, Double.integerPart_ofInt hn, decide_eq_true (by omega),
      decide_eq_true (by omega)]
    rfl
  rw [ofNumber, hzero, if_neg Bool.false_ne_true, Double.isWhole_ofInt hn, if_pos rfl, hinteger]
  exact congrArg int32 (Int32.ofInt_toInt n)

end Value

/-! ### Strings of numbers -/

/-- A string that was just made is read as its text. -/
theorem toNumber_newString {h : Heap} (hn : h.HasNext) (t : Text) :
    ∃ s h', (newString t).runOn h = (.ok s, h') ∧
      (toNumber (.string s)).runOn h' = (.ok t.toNumber, h') := by
  refine ⟨_, _, rfl, ?_⟩
  have hslot := slot?_allocate_of_hasNext h t hn h.nextSlot
  rw [if_pos rfl] at hslot
  show (toNumber (.string (h.allocate t).1)).runOn (h.allocate t).2 = _
  rw [allocate_fst]
  show ((h.allocate t).2.primitiveToNumber (.string (.heap h.nextSlot)), (h.allocate t).2) = _
  have htext : (h.allocate t).2.text (.heap h.nextSlot) = .ok t := by
    rw [text, hslot]
  rw [primitiveToNumber, htext]
  rfl

theorem toNumber_builtin (h : Heap) (b : Builtin) :
    (toNumber (.string (.builtin b))).runOn h = (.ok (Text.ofBuiltin b).toNumber, h) := rfl

theorem toNumber_of_toDouble? {t : Text} {d : Double} (ht : t.toDouble? = some d) :
    t.toNumber = Value.ofNumber d := by
  rw [Text.toNumber, ht]
  rfl

/-- The numbers that are written with all their digits. Nothing is said of a negative zero, which is written
as zero. -/
def Value.IsPlain : Value → Prop
  | .nan | .infinity _ | .int32 _ => True
  | .double d => (d.val.isZero && d.val.isNegative) = false ∧
    ∃ k : Int, d.val.units = k * Double.one ∧ k.natAbs < 10 ^ 21
  | _ => False

/-- What a number is read as after it was written. -/
def ReadsBack (h : Heap) (v w : Value) : Prop :=
  ∃ s h', (toStringRef v).runOn h = (.ok s, h') ∧ (toNumber (.string s)).runOn h' = (.ok w, h')

theorem readsBack_of_text {h : Heap} (hn : h.HasNext) {v : Value} {t : Text} {d : Double}
    (hv : toStringRef v = newString t) (ht : t.toDouble? = some d) : ReadsBack h v (Value.ofNumber d) := by
  obtain ⟨s, h', hwrite, hread⟩ := toNumber_newString hn t
  exact ⟨s, h', hv ▸ hwrite, toNumber_of_toDouble? ht ▸ hread⟩

theorem toStringRef_double {d : FiniteDouble} (hzero : d.val.isZero = false) :
    toStringRef (.double d) = newString (Text.ofString d.val.text) :=
  if_neg (Bool.eq_false_iff.mp hzero)

theorem toStringRef_int32 {n : Int32} (hzero : n ≠ 0) :
    toStringRef (.int32 n) = newString (Text.ofString (int32Text n)) := if_neg hzero

theorem readsBack_of_builtin (h : Heap) {v w : Value} {b : Builtin} (hv : toStringRef v = pure (.builtin b))
    (hw : (Text.ofBuiltin b).toNumber = w) : ReadsBack h v w :=
  ⟨.builtin b, h, hv ▸ rfl, hw ▸ toNumber_builtin h b⟩

/-- The texts of the table that numbers are written with. -/
theorem toNumber_ofBuiltin :
    (Text.ofBuiltin .digit0).toNumber = Value.zero ∧ (Text.ofBuiltin .nan).toNumber = .nan ∧
      (Text.ofBuiltin .infinity).toNumber = .infinity .positive ∧
      (Text.ofBuiltin .negInfinity).toNumber = .infinity .negative := by decide +kernel

section Plain
variable {h : Heap}

theorem readsBack_nan : ReadsBack h .nan .nan := readsBack_of_builtin h rfl toNumber_ofBuiltin.2.1

theorem readsBack_infinity (sign : Sign) : ReadsBack h (.infinity sign) (.infinity sign) := by
  cases sign with
  | positive => exact readsBack_of_builtin h rfl toNumber_ofBuiltin.2.2.1
  | negative => exact readsBack_of_builtin h rfl toNumber_ofBuiltin.2.2.2

/-- A zero is written without its sign. -/
theorem readsBack_zero {d : FiniteDouble} (hzero : d.val.isZero = true) : ReadsBack h (.double d) Value.zero :=
  readsBack_of_builtin h (if_pos hzero) toNumber_ofBuiltin.1

theorem readsBack_int32 (hn : h.HasNext) (n : Int32) : ReadsBack h (.int32 n) (.int32 n) := by
  by_cases hzero : n = 0
  · subst hzero
    exact readsBack_of_builtin h rfl toNumber_ofBuiltin.1
  · have hlow := n.le_toInt
    have hhigh := n.toInt_lt
    have hbound := natAbs_toInt_lt n
    have hpos : 0 < n.toInt.natAbs := Int.natAbs_pos.mpr fun heq => hzero (Int32.toInt_inj.mp heq)
    have hread := Double.toDouble?_text_of_whole hpos (Double.magnitude_ofInt hbound)
      (Double.isFinite_ofInt hbound) (by omega)
    rw [← Double.int32Text_eq (Double.isFinite_ofInt hbound) (Double.units_ofInt hbound)] at hread
    have hback := readsBack_of_text hn (toStringRef_int32 hzero) hread
    rwa [Value.ofNumber_ofInt] at hback

theorem readsBack_double (hn : h.HasNext) {d : FiniteDouble} {k : Int} (hunits : d.val.units = k * Double.one)
    (hsign : (d.val.isZero && d.val.isNegative) = false) (hk : k.natAbs < 10 ^ 21) :
    ∃ w, ReadsBack h (.double d) w ∧ w.isFiniteNumber = true ∧ w.toDouble = d.val := by
  have hiszero := Double.isZero_of_units hunits
  by_cases hzero : k = 0
  · rw [decide_eq_true hzero] at hiszero
    rw [hiszero, Bool.true_and] at hsign
    refine ⟨Value.zero, readsBack_zero hiszero, rfl, ?_⟩
    rw [← Double.ofPattern_pattern d.val, hsign, of_decide_eq_true hiszero]
    exact Value.toDouble_zero
  · have hpos : 0 < k.natAbs := Int.natAbs_pos.mpr hzero
    have hmagnitude := Double.magnitude_of_units hunits
    have hread := Double.toDouble?_text_of_whole hpos hmagnitude d.isFinite hk
    have hback := readsBack_of_text hn (toStringRef_double (Double.isZero_of_whole hpos hmagnitude)) hread
    exact ⟨_, hback, Value.ofNumber_of_isFinite d.isFinite⟩

end Plain

/-- An integer is written like the doubles that have its value. -/
theorem toStringRef_eq_of_units {n : Int32} {d : FiniteDouble} (hunits : d.val.units = n.toInt * Double.one) :
    toStringRef (.int32 n) = toStringRef (.double d) := by
  have hiszero := Double.isZero_of_units hunits
  by_cases hzero : n = 0
  · subst hzero
    exact (if_pos hiszero : toStringRef (.double d) = _).symm
  · have hne : n.toInt ≠ 0 := fun heq => hzero (Int32.toInt_inj.mp heq)
    rw [decide_eq_false hne] at hiszero
    rw [toStringRef_int32 hzero, toStringRef_double hiszero, Double.int32Text_eq d.isFinite hunits]

/-- A plain number is read back as the same value, and as the very same one unless it is a double. Integers are
written like the doubles that have their values. -/
theorem readsBack_of_isPlain (h : Heap) (hn : h.HasNext) (v : Value) (hv : v.IsPlain) :
    (∃ w, ReadsBack h v w ∧ (∀ g : Heap, g.sameValue w v = .ok true) ∧ ((∀ d, v ≠ .double d) → w = v)) ∧
      ∀ (n : Int32) (d : FiniteDouble), d.val.units = n.toInt * Double.one →
        int32Text n = d.val.text ∧ toStringRef (.int32 n) = toStringRef (.double d) := by
  refine ⟨?_, fun n d hunits => ⟨Double.int32Text_eq d.isFinite hunits, toStringRef_eq_of_units hunits⟩⟩
  have hidentical : ReadsBack h v v →
      ∃ w, ReadsBack h v w ∧ (∀ g : Heap, g.sameValue w v = .ok true) ∧ ((∀ d, v ≠ .double d) → w = v) :=
    fun hback => ⟨v, hback, fun g => sameValue_self v, fun _ => rfl⟩
  cases v with
  | nan => exact hidentical readsBack_nan
  | infinity sign => exact hidentical (readsBack_infinity sign)
  | int32 n => exact hidentical (readsBack_int32 hn n)
  | double d =>
    obtain ⟨hsign, k, hunits, hk⟩ := hv
    obtain ⟨w, hback, hw, hsame⟩ := readsBack_double hn hunits hsign hk
    refine ⟨w, hback, fun g => ?_, fun hne => absurd rfl (hne d)⟩
    rw [sameValue_number hw rfl, hsame]
    exact congrArg Except.ok (decide_eq_true rfl)
  | _ => exact hv.elim

/-- The greatest of the plain doubles is read back. -/
theorem readsBack_of_isPlain_greatest :
    ∃ w, ReadsBack (Heap.new {}) (.double ⟨⟨0x444b1ae4d6e2ef4f⟩, by decide⟩) w ∧
      (Heap.new {}).sameValue w (.double ⟨⟨0x444b1ae4d6e2ef4f⟩, by decide⟩) = .ok true := by
  have hplain : Value.IsPlain (.double ⟨⟨0x444b1ae4d6e2ef4f⟩, by decide⟩) :=
    ⟨by decide, 999999999999999868928, by decide +kernel, by decide⟩
  obtain ⟨w, hback, hsame, -⟩ := (readsBack_of_isPlain (Heap.new {}) (by decide : (0 : Nat) < 2 ^ 32) _ hplain).1
  exact ⟨w, hback, hsame _⟩

end ScriptCore
