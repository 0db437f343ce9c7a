import ScriptCore.Arithmetic
import ScriptCore.Double.Exact
import ScriptCore.Proofs.WellFormed

/-! The three equalities.

`sameValue` compares identities (`sameValue_eq`): a number is known by its double, a string by its code units,
a function by the code that it runs, and anything else by itself. So it is an equivalence. `strictEquals`
differs from it where a value is no number, on zeros and on absent values, and `looseEquals` asks the same
question as `strictEquals` when that answers yes (`equality_chain`).

All this needs equal numbers to be one number. The approximate semantics with the smallest epsilon is as
good for that as the exact one (`Semantics.IsFaithful.numbersEqual_eq_numEq`); with a larger epsilon numbers
that differ may be equal. -/
namespace ScriptCore

open Heap HeapM

variable {h : Heap} {x y : Value}

/-! ### Numbers -/

/-- Integers of 32 bits and finite doubles. -/
def Value.isFiniteNumber : Value → Bool
  | int32 _ | double _ => true
  | _ => false

/-- The two ways to compare numbers that agree on all of them. -/
def Semantics.IsFaithful (s : Semantics) : Prop := s = {} ∨ s = Semantics.exact

theorem natAbs_toInt_lt (n : Int32) : n.toInt.natAbs < 2 ^ 53 := by
  have hlow := n.le_toInt
  have hhigh := n.toInt_lt
  omega

theorem Value.toDouble_int32 (n : Int32) : (int32 n).toDouble = Double.ofInt n.toInt := rfl

theorem Value.isFinite_toDouble (hx : x.isFiniteNumber = true) : x.toDouble.isFinite = true := by
  cases x with
  | int32 n =>
    rw [toDouble_int32]
    exact Double.isFinite_ofInt (natAbs_toInt_lt n)
  | double d => exact d.isFinite
  | _ => cases hx

theorem Value.isNumeric_of_isFiniteNumber (hx : x.isFiniteNumber = true) : x.isNumeric = true := by
  cases x with
  | int32 _ | double _ => rfl
  | _ => cases hx

theorem Value.isZero_eq (x : Value) : x.isZero = x.toDouble.isZero := by
  unfold isZero toDouble
  cases x.number? with
  | none => decide
  | some d => rfl

theorem Semantics.IsFaithful.numbersEqual_eq_numEq {s : Semantics} (hs : s.IsFaithful) {a b : Double}
    (ha : a.isFinite = true) (hb : b.isFinite = true) : s.numbersEqual a b = a.numEq b := by
  rcases hs with rfl | rfl
  · exact Double.abs_sub_numLt_smallest ha hb
  · rfl

theorem Double.numEq_comm (a b : Double) : a.numEq b = b.numEq a := by
  rw [numEq, numEq, Bool.and_comm (!a.isNaN), Bool.beq_comm]

/-- Finite doubles with the same number and the same sign are the same double. -/
theorem Double.numEq_and_sign_eq {a b : Double} (ha : a.isFinite = true) (hb : b.isFinite = true) :
    (a.numEq b && a.isNegative == b.isNegative) = decide (a = b) := by
  rw [numEq_of_isFinite ha hb]
  by_cases heq : a = b
  · simp [heq]
  · have hkey : a.key = b.key → ¬ a.isNegative = b.isNegative :=
      fun hkey hsign => heq (eq_of_key_eq hkey hsign)
    simpa [heq] using hkey

/-- Integers with the same number are the same integer. -/
theorem Value.key_int32_inj {m n : Int32} : (int32 m).toDouble.key = (int32 n).toDouble.key ↔ m = n := by
  rw [← Int32.toInt_inj, toDouble_int32, toDouble_int32]
  exact Double.key_ofInt_inj (natAbs_toInt_lt m) (natAbs_toInt_lt n)

/-! ### Negative zeros -/

theorem Value.negativeZero_eq : Value.negativeZero = .double ⟨Double.zero true, by decide⟩ := rfl

theorem Value.positiveZero_eq : Value.positiveZero = .double ⟨Double.zero false, by decide⟩ := rfl

theorem Value.withoutNegativeZero_other (hx : x.isFiniteNumber = false) : x.withoutNegativeZero = x := by
  refine if_neg fun heq => ?_
  rw [heq, negativeZero_eq] at hx
  cases hx

/-- A number remains the same number. -/
theorem Value.withoutNegativeZero_number (hx : x.isFiniteNumber = true) :
    x.withoutNegativeZero.isFiniteNumber = true ∧ x.withoutNegativeZero.toDouble.key = x.toDouble.key := by
  unfold withoutNegativeZero
  split
  · rename_i heq
    rw [heq, positiveZero_eq, negativeZero_eq]
    exact ⟨rfl, by decide⟩
  · exact ⟨hx, rfl⟩

/-- Zeros of different sign. -/
def OppositeZeros (x y : Value) : Prop :=
  x.isZero = true ∧ y.isZero = true ∧ x.toDouble.isNegative ≠ y.toDouble.isNegative

/-- One is a hole or an absent argument and the other one `undefined`. -/
def AbsentPair (x y : Value) : Prop := (x = .none ∧ y = .undefined) ∨ (x = .undefined ∧ y = .none)

/-! ### Identities -/

/-- What a value is known by. -/
inductive Identity where
  | number (d : Double)
  | text (units : List UInt16)
  | code (f : FunctionData)
  | value (v : Value)
deriving DecidableEq

namespace Heap

/-- References of the value lead somewhere. -/
def Resolves (h : Heap) : Value → Prop
  | .string s => ∃ t, h.text s = .ok t
  | .object o => ∃ c, h.objectClass o = .ok c
  | _ => True

def identity (h : Heap) : Value → Identity
  | .int32 n => .number (Double.ofInt n.toInt)
  | .double d => .number d.val
  | .string s =>
    match h.text s with
    | .ok t => .text t.units
    | .error _ => .value (.string s)
  | .object o =>
    match h.objectClass o with
    | .ok (.function f) => .code f
    | _ => .value (.object o)
  | .function entry => .code (.ordinary entry)
  | v => .value v

section Identity
variable {h : Heap} {v w : Value} {d : Double} {units : List UInt16} {f : FunctionData}

theorem identity_number (hv : v.isFiniteNumber = true) : h.identity v = .number v.toDouble := by
  cases v with
  | int32 _ | double _ => rfl
  | _ => cases hv

theorem identity_string {s : StringRef} {t : Text} (ht : h.text s = .ok t) :
    h.identity (.string s) = .text t.units := by
  rw [identity, ht]

theorem identity_function {o : ObjectRef} (ho : h.objectClass o = .ok (.function f)) :
    h.identity (.object o) = .code f := by
  rw [identity, ho]

theorem identity_object {o : ObjectRef} {c : ObjectClass} (ho : h.objectClass o = .ok c)
    (hc : ∀ f, c ≠ .function f) : h.identity (.object o) = .value (.object o) := by
  rw [identity, ho]
  split
  · rename_i f heq
    exact absurd (Except.ok.inj heq) (hc f)
  · rfl

/-! A value can be told from its identity as far as its kind goes. -/

theorem isFiniteNumber_of_identity (hv : h.identity v = .number d) : v.isFiniteNumber = true := by
  cases v <;> simp only [identity] at hv <;> first | rfl | cases hv | (split at hv <;> cases hv)

theorem string_of_identity (hv : h.identity v = .text units) : ∃ s, v = .string s := by
  cases v <;> simp only [identity] at hv <;> first | exact ⟨_, rfl⟩ | cases hv | (split at hv <;> cases hv)

theorem code_of_identity (hv : h.identity v = .code f) :
    (∃ o, v = .object o) ∨ ∃ entry, v = .function entry ∧ f = .ordinary entry := by
  cases v <;> simp only [identity] at hv <;> first
    | exact .inl ⟨_, rfl⟩
    | exact .inr ⟨_, rfl, (Identity.code.inj hv).symm⟩
    | cases hv
    | (split at hv <;> cases hv)

theorem eq_of_identity (hv : h.identity v = .value w) : v = w := by
  cases v <;> simp only [identity] at hv <;> first
    | exact Identity.value.inj hv
    | cases hv
    | (split at hv <;> first | exact Identity.value.inj hv | cases hv)

/-- Values with one identity are one value, or two of a kind, or a function and an object that runs it. -/
theorem identity_cases (hid : h.identity v = h.identity w) :
    v = w ∨ (v.isFiniteNumber = true ∧ w.isFiniteNumber = true) ∨ (∃ a b, v = .string a ∧ w = .string b) ∨
      (∃ a b, v = .object a ∧ w = .object b) ∨ (∃ o entry, v = .object o ∧ w = .function entry) ∨
      ∃ entry o, v = .function entry ∧ w = .object o := by
  cases hw : h.identity w with
  | number d => exact .inr (.inl ⟨isFiniteNumber_of_identity (hid.trans hw), isFiniteNumber_of_identity hw⟩)
  | text units =>
    obtain ⟨a, rfl⟩ := string_of_identity (hid.trans hw)
    obtain ⟨b, rfl⟩ := string_of_identity hw
    exact .inr (.inr (.inl ⟨a, b, rfl, rfl⟩))
  | code f =>
    obtain ⟨a, rfl⟩ | ⟨entry, rfl, rfl⟩ := code_of_identity (hid.trans hw) <;>
      obtain ⟨b, rfl⟩ | ⟨other, rfl, hf⟩ := code_of_identity hw
    · exact .inr (.inr (.inr (.inl ⟨a, b, rfl, rfl⟩)))
    · exact .inr (.inr (.inr (.inr (.inl ⟨a, other, rfl, rfl⟩))))
    · exact .inr (.inr (.inr (.inr (.inr ⟨entry, b, rfl, rfl⟩))))
    · exact .inl (congrArg Value.function (FunctionData.ordinary.inj hf))
  | value u => exact .inl ((eq_of_identity (hid.trans hw)).trans (eq_of_identity hw).symm)

end Identity

/-! ### The same value -/

theorem sameValue_self (v : Value) : h.sameValue v v = .ok true := if_pos rfl

/-- Numbers are the same when their doubles are. -/
theorem sameValue_number (hx : x.isFiniteNumber = true) (hy : y.isFiniteNumber = true) :
    h.sameValue x y = .ok (decide (x.toDouble = y.toDouble)) := by
  by_cases hne : x = y
  · rw [hne, sameValue_self, decide_eq_true rfl]
  have hnum := Double.numEq_and_sign_eq (x.isFinite_toDouble hx) (y.isFinite_toDouble hy)
  unfold sameValue
  rw [if_neg hne]
  cases x with
  | int32 m =>
    cases y with
    | int32 n =>
      -- Equal integers are equal values, so these differ and so do their doubles.
      have hmn : ¬ (Value.int32 m).toDouble = (Value.int32 n).toDouble :=
        fun hd => hne (congrArg Value.int32 (Value.key_int32_inj.mp (congrArg Double.key hd)))
      exact congrArg Except.ok (decide_eq_false hmn).symm
    | double d => exact congrArg Except.ok hnum
    | _ => cases hy
  | double d =>
    cases y with
    | int32 n => exact congrArg Except.ok hnum
    | double d' => exact congrArg Except.ok hnum
    | _ => cases hy
  | _ => cases hx

theorem sameValue_of_ne_string {a b : StringRef} {t u : Text} (ha : h.text a = .ok t) (hb : h.text b = .ok u)
    (hne : Value.string a ≠ .string b) :
    h.sameValue (.string a) (.string b) = .ok (decide (t.units = u.units)) := by
  have hunits : t.sameUnits u = decide (t.units = u.units) := by
    rw [Bool.eq_iff_iff, decide_eq_true_iff, Text.sameUnits_iff]
  unfold sameValue
  rw [if_neg hne, ← hunits]
  simp only [ha, hb]
  rfl

theorem sameValue_of_ne_object {a b : ObjectRef} {c e : ObjectClass} (ha : h.objectClass a = .ok c)
    (hb : h.objectClass b = .ok e) (hne : Value.object a ≠ .object b) :
    h.sameValue (.object a) (.object b) = .ok (decide (h.identity (.object a) = h.identity (.object b))) := by
  unfold sameValue
  rw [if_neg hne]
  simp only [ha, hb, bind, Except.bind]
  split
  · rw [identity_function ha, identity_function hb]
    simp only [Identity.code.injEq]
    rfl
  · rename_i hcode
    have hid : ¬ h.identity (.object a) = h.identity (.object b) := by
      intro hid
      by_cases hf : ∃ f, c = .function f
      · obtain ⟨f, rfl⟩ := hf
        rw [identity_function ha, identity_object hb fun g hg => hcode f g rfl hg] at hid
        cases hid
      · rw [identity_object ha fun f hc => hf ⟨f, hc⟩] at hid
        exact hne (eq_of_identity hid.symm).symm
    rw [decide_eq_false hid]
    rfl

theorem sameValue_object_function {o : ObjectRef} {c : ObjectClass} (entry : Address)
    (ho : h.objectClass o = .ok c) :
    h.sameValue (.object o) (.function entry) =
      .ok (decide (h.identity (.object o) = h.identity (.function entry))) := by
  have hid : h.identity (.object o) = .code (.ordinary entry) ↔ c = .function (.ordinary entry) := by
    by_cases hf : ∃ f, c = .function f
    · obtain ⟨f, rfl⟩ := hf
      rw [identity_function ho, Identity.code.injEq, ObjectClass.function.injEq]
    · rw [identity_object ho fun f hc => hf ⟨f, hc⟩]
      exact iff_of_false nofun fun hc => hf ⟨_, hc⟩
  unfold sameValue
  rw [if_neg nofun, show h.identity (.function entry) = .code (.ordinary entry) from rfl,
    decide_eq_decide.mpr hid]
  simp only [ho]
  rfl

theorem sameValue_function_object (o : ObjectRef) (entry : Address) :
    h.sameValue (.function entry) (.object o) = h.sameValue (.object o) (.function entry) := by
  unfold sameValue
  rw [if_neg nofun, if_neg nofun]

/-- Values are the same when their identities are. -/
theorem sameValue_eq (hx : h.Resolves x) (hy : h.Resolves y) :
    h.sameValue x y = .ok (decide (h.identity x = h.identity y)) := by
  by_cases hnum : x.isFiniteNumber = true ∧ y.isFiniteNumber = true
  · simp only [sameValue_number hnum.1 hnum.2, identity_number hnum.1, identity_number hnum.2,
      Identity.number.injEq]
  by_cases hne : x = y
  · rw [hne, sameValue_self, decide_eq_true rfl]
  generalize hr : h.sameValue x y = r
  have hcases := hr
  unfold sameValue at hcases
  rw [if_neg hne] at hcases
  split at hcases
  · exact absurd ⟨rfl, rfl⟩ hnum
  · exact absurd ⟨rfl, rfl⟩ hnum
  · exact absurd ⟨rfl, rfl⟩ hnum
  · obtain ⟨t, ht⟩ := hx
    obtain ⟨u, hu⟩ := hy
    simp only [← hr, sameValue_of_ne_string ht hu hne, identity_string ht, identity_string hu,
      Identity.text.injEq]
  · obtain ⟨c, hc⟩ := hx
    obtain ⟨e, he⟩ := hy
    rw [← hr, sameValue_of_ne_object hc he hne]
  · obtain ⟨c, hc⟩ := hx
    rw [← hr, sameValue_object_function _ hc]
  · obtain ⟨c, hc⟩ := hy
    rw [← hr, sameValue_function_object, sameValue_object_function _ hc, decide_eq_decide.mpr eq_comm]
  · rename_i hstrings hobjects hcode hcode'
    have hid : ¬ h.identity x = h.identity y := by
      intro hid
      obtain heq | hnumbers | ⟨a, b, ha, hb⟩ | ⟨a, b, ha, hb⟩ | ⟨o, entry, ho, he⟩ | ⟨entry, o, he, ho⟩ :=
        identity_cases hid
      · exact hne heq
      · exact hnum hnumbers
      · exact hstrings a b ha hb
      · exact hobjects a b ha hb
      · exact hcode o entry ho he
      · exact hcode' entry o he ho
    rw [← hcases, decide_eq_false hid]

theorem sameValue_eq_true (hx : h.Resolves x) (hy : h.Resolves y) :
    h.sameValue x y = .ok true ↔ h.identity x = h.identity y := by
  rw [sameValue_eq hx hy, Except.ok.injEq, decide_eq_true_iff]

/-! ### Strict equality -/

theorem strictEquals_number (hsem : h.semantics.IsFaithful) (hx : x.isFiniteNumber = true)
    (hy : y.isFiniteNumber = true) : h.strictEquals x y = .ok (x.toDouble.numEq y.toDouble) := by
  obtain ⟨hx', hxkey⟩ := x.withoutNegativeZero_number hx
  obtain ⟨hy', hykey⟩ := y.withoutNegativeZero_number hy
  rw [Double.numEq_of_isFinite (x.isFinite_toDouble hx) (y.isFinite_toDouble hy), ← hxkey, ← hykey,
    ← Double.numEq_of_isFinite (Value.isFinite_toDouble hx') (Value.isFinite_toDouble hy')]
  unfold strictEquals
  generalize x.withoutNegativeZero = x' at hx' ⊢
  generalize y.withoutNegativeZero = y' at hy' ⊢
  have hx := Value.isFinite_toDouble hx'
  have hy := Value.isFinite_toDouble hy'
  cases x' with
  | int32 m =>
    cases y' with
    | int32 n =>
      have hid : (Value.int32 m).toDouble = (Value.int32 n).toDouble ↔
          (Value.int32 m).toDouble.key = (Value.int32 n).toDouble.key :=
        ⟨congrArg Double.key, fun hkey => by rw [Value.key_int32_inj.mp hkey]⟩
      refine (sameValue_number hx' hy').trans (congrArg Except.ok ?_)
      rw [Double.numEq_of_isFinite hx hy, Bool.eq_iff_iff, decide_eq_true_iff, beq_iff_eq, hid]
    | double e =>
      exact congrArg Except.ok ((hsem.numbersEqual_eq_numEq hy hx).trans (Double.numEq_comm _ _))
    | _ => cases hy'
  | double d =>
    cases y' with
    | int32 n => exact congrArg Except.ok (hsem.numbersEqual_eq_numEq hx hy)
    | double e => exact congrArg Except.ok (hsem.numbersEqual_eq_numEq hx hy)
    | _ => cases hy'
  | _ => cases hx'

/-- Numbers and other values are never equal. -/
theorem sameValue_number_other (hx : x.isFiniteNumber = true) (hy : y.isFiniteNumber = false) :
    h.sameValue x y = .ok false ∧ h.sameValue y x = .ok false := by
  cases x with
  | int32 _ | double _ =>
    cases y with
    | int32 _ | double _ => cases hy
    | _ => exact ⟨rfl, rfl⟩
  | _ => cases hx

theorem strictEquals_number_other (hx : x.isFiniteNumber = true) (hy : y.isFiniteNumber = false) :
    h.strictEquals x y = .ok false ∧ h.strictEquals y x = .ok false := by
  obtain ⟨hx', -⟩ := x.withoutNegativeZero_number hx
  have hsame := sameValue_number_other (h := h) hx' hy
  unfold strictEquals
  rw [Value.withoutNegativeZero_other hy]
  generalize x.withoutNegativeZero = x' at hx' hsame ⊢
  cases x' with
  | int32 _ | double _ =>
    cases y with
    | int32 _ | double _ => cases hy
    | nan | boolean _ => exact ⟨rfl, rfl⟩
    | _ => exact hsame
  | _ => cases hx'

theorem sameValue_boolean (a b : Bool) : h.sameValue (.boolean a) (.boolean b) = .ok (a == b) := by
  cases a <;> cases b <;> rfl

theorem strictEquals_nan (hnan : x = .nan ∨ y = .nan) : h.strictEquals x y = .ok false := by
  obtain rfl | rfl := hnan
  · rfl
  · unfold strictEquals
    rw [Value.withoutNegativeZero_other (x := .nan) rfl]
    cases x.withoutNegativeZero <;> rfl

/-- Other values are equal when they are the same, but for `nan` and absent values. -/
theorem strictEquals_other (hx : x.isFiniteNumber = false) (hy : y.isFiniteNumber = false)
    (hnan : ¬ (x = .nan ∨ y = .nan)) (habsent : ¬ AbsentPair x y) : h.strictEquals x y = h.sameValue x y := by
  unfold strictEquals
  rw [Value.withoutNegativeZero_other hx, Value.withoutNegativeZero_other hy]
  split
  · exact absurd (.inl rfl) hnan
  · exact absurd (.inr rfl) hnan
  · cases hx
  · cases hx
  · cases hx
  · exact (sameValue_boolean _ _).symm
  · rename_i a _ hboolean
    cases y with
    | boolean b => exact (hboolean _ rfl).elim
    | _ => rfl
  · rename_i b _ hboolean
    cases x with
    | boolean a => exact (hboolean _ rfl).elim
    | _ => rfl
  · exact absurd (.inl ⟨rfl, rfl⟩) habsent
  · exact absurd (.inr ⟨rfl, rfl⟩) habsent
  · rfl

theorem strictEquals_of_sameValue (hsem : h.semantics.IsFaithful) (hx : h.Resolves x) (hy : h.Resolves y)
    (hsame : h.sameValue x y = .ok true) (hne : x ≠ .nan) : h.strictEquals x y = .ok true := by
  cases hxnum : x.isFiniteNumber <;> cases hynum : y.isFiniteNumber
  · have hid := (sameValue_eq_true hx hy).mp hsame
    have hnan : ¬ (x = .nan ∨ y = .nan) := by
      rintro (rfl | rfl)
      · exact hne rfl
      · exact hne (eq_of_identity hid)
    have habsent : ¬ AbsentPair x y := by
      rintro (⟨rfl, rfl⟩ | ⟨rfl, rfl⟩) <;> cases hid
    rw [strictEquals_other hxnum hynum hnan habsent, hsame]
  · cases hsame.symm.trans (sameValue_number_other hynum hxnum).2
  · cases hsame.symm.trans (sameValue_number_other hxnum hynum).1
  · rw [sameValue_number hxnum hynum, Except.ok.injEq, decide_eq_true_iff] at hsame
    rw [strictEquals_number hsem hxnum hynum, Double.numEq_of_isFinite (x.isFinite_toDouble hxnum)
      (y.isFinite_toDouble hynum), hsame, beq_self_eq_true]

/-- Why values are equal. -/
theorem strictEquals_cases (hstrict : h.strictEquals x y = .ok true) :
    (x.isFiniteNumber = true ∧ y.isFiniteNumber = true) ∨ AbsentPair x y ∨ h.sameValue x y = .ok true := by
  cases hxnum : x.isFiniteNumber <;> cases hynum : y.isFiniteNumber
  · have hnan : ¬ (x = .nan ∨ y = .nan) := fun hnan => by cases hstrict.symm.trans (strictEquals_nan hnan)
    by_cases habsent : AbsentPair x y
    · exact .inr (.inl habsent)
    · rw [strictEquals_other hxnum hynum hnan habsent] at hstrict
      exact .inr (.inr hstrict)
  · cases hstrict.symm.trans (strictEquals_number_other hynum hxnum).2
  · cases hstrict.symm.trans (strictEquals_number_other hxnum hynum).1
  · exact .inl ⟨rfl, rfl⟩

theorem sameValue_of_strictEquals (hsem : h.semantics.IsFaithful) (hstrict : h.strictEquals x y = .ok true) :
    h.sameValue x y = .ok true ∨ OppositeZeros x y ∨ AbsentPair x y := by
  obtain ⟨hx, hy⟩ | habsent | hsame := strictEquals_cases hstrict
  · rw [strictEquals_number hsem hx hy, Except.ok.injEq, Double.numEq_of_isFinite (x.isFinite_toDouble hx)
      (y.isFinite_toDouble hy), beq_iff_eq] at hstrict
    by_cases heq : x.toDouble = y.toDouble
    · left
      rw [sameValue_number hx hy, decide_eq_true heq]
    · have hsign : x.toDouble.isNegative ≠ y.toDouble.isNegative :=
        fun hsign => heq (Double.eq_of_key_eq hstrict hsign)
      have hzeros := Double.isZero_of_key_eq hstrict hsign
      rw [← Value.isZero_eq, ← Value.isZero_eq] at hzeros
      exact .inr (.inl ⟨hzeros.1, hzeros.2, hsign⟩)
  · exact .inr (.inr habsent)
  · exact .inl hsame

/-! ### Loose equality -/

theorem looseEqualsWithin_of_sameValue (n : Nat) (hnum : ¬ (x.isNumeric = true ∧ y.isNumeric = true))
    (hsame : h.sameValue x y = .ok true) : (looseEqualsWithin (n + 1) x y).runOn h = (.ok true, h) := by
  have hask : (HeapM.ask (·.sameValue x y)).runOn h = (.ok true, h) := by rw [runOn_ask, hsame]
  by_cases hne : x = y
  · subst hne
    have hx : x.undefinedIfNone.isNumeric = false := by cases x <;> first | rfl | exact absurd ⟨rfl, rfl⟩ hnum
    simp [looseEqualsWithin, hx, sameValue_self]
  · unfold sameValue at hsame
    rw [if_neg hne] at hsame
    split at hsame
    · exact absurd ⟨rfl, rfl⟩ hnum
    · exact absurd ⟨rfl, rfl⟩ hnum
    · exact absurd ⟨rfl, rfl⟩ hnum
    · exact hask
    · exact hask
    · exact hask
    · exact hask
    · cases hsame

theorem looseEquals_of_strictEquals (hstrict : h.strictEquals x y = .ok true) :
    (looseEquals x y).runOn h = (.ok true, h) := by
  show (looseEqualsWithin (h.objects.size + 3 + 1) x y).runOn h = _
  by_cases hnum : x.isNumeric = true ∧ y.isNumeric = true
  · have hx : x.undefinedIfNone = x := by cases x <;> first | rfl | cases hnum.1
    have hy : y.undefinedIfNone = y := by cases y <;> first | rfl | cases hnum.2
    simp [looseEqualsWithin, hx, hy, hnum, hstrict]
  · obtain ⟨hx, hy⟩ | (⟨rfl, rfl⟩ | ⟨rfl, rfl⟩) | hsame := strictEquals_cases hstrict
    · exact absurd ⟨Value.isNumeric_of_isFiniteNumber hx, Value.isNumeric_of_isFiniteNumber hy⟩ hnum
    · rfl
    · rfl
    · exact looseEqualsWithin_of_sameValue _ hnum hsame

end Heap

/-- How the three equalities are related when references lead somewhere. -/
theorem equality_chain (h : Heap) (hsem : h.semantics.IsFaithful) (x y z : Value) (hx : h.Resolves x)
    (hy : h.Resolves y) (hz : h.Resolves z) :
    h.sameValue x x = .ok true ∧
    (∃ b, h.sameValue x y = .ok b ∧ h.sameValue y x = .ok b) ∧
    (h.sameValue x y = .ok true → h.sameValue y z = .ok true → h.sameValue x z = .ok true) ∧
    (h.sameValue x y = .ok true → x ≠ .nan → h.strictEquals x y = .ok true) ∧
    (h.strictEquals x y = .ok true → h.sameValue x y ≠ .ok true → OppositeZeros x y ∨ AbsentPair x y) ∧
    (h.strictEquals x y = .ok true → (looseEquals x y).runOn h = (.ok true, h)) := by
  refine ⟨Heap.sameValue_self x, ⟨_, Heap.sameValue_eq hx hy, ?_⟩, fun hxy hyz => ?_,
    Heap.strictEquals_of_sameValue hsem hx hy, fun hstrict hne => ?_, Heap.looseEquals_of_strictEquals⟩
  · rw [Heap.sameValue_eq hy hx, decide_eq_decide.mpr eq_comm]
  · rw [Heap.sameValue_eq_true hx hy] at hxy
    rw [Heap.sameValue_eq_true hy hz] at hyz
    exact (Heap.sameValue_eq_true hx hz).mpr (hxy.trans hyz)
  · exact (Heap.sameValue_of_strictEquals hsem hstrict).resolve_left hne

/-- A heap with one text in two strings. -/
def twins : Heap := (((Heap.new {}).allocate (Text.ofString "a")).2.allocate (Text.ofString "a")).2

theorem equality_chain_twins :
    twins.sameValue (.string (.heap 0)) (.string (.heap 1)) = .ok true ∧
    (looseEquals (.string (.heap 0)) (.string (.heap 1))).runOn twins = (.ok true, twins) := by
  obtain ⟨-, -, -, hstrict, -, hloose⟩ := equality_chain twins (.inl rfl) (.string (.heap 0))
    (.string (.heap 1)) (.string (.heap 0)) ⟨_, rfl⟩ ⟨_, rfl⟩ ⟨_, rfl⟩
  have hsame : twins.sameValue (.string (.heap 0)) (.string (.heap 1)) = .ok true := by decide +kernel
  exact ⟨hsame, hloose (hstrict hsame nofun)⟩

end ScriptCore
