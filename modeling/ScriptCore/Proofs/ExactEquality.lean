import ScriptCore.Proofs.Indiscernible
import ScriptCore.Proofs.Symmetry

/-! The smallest epsilon makes equality exact.

A difference of finite doubles is below the smallest magnitude only if it is zero, and it is never rounded to zero
unless the doubles are one number (`Double.abs_sub_numLt_smallest`). So the approximate semantics with the
smallest epsilon compare numbers as the exact ones do, strict equality does not tell them apart
(`Heap.LooksLike.strictEquals`), and no comparison that loose equality comes to does (`blind_looseEqualsWithin`). -/
namespace ScriptCore

open Heap HeapM

variable {h g : Heap}

/-- Numbers are equal in double arithmetic when they are one number of units. -/
theorem Double.numEq_iff_units {a b : Double} (ha : a.isFinite = true) (hb : b.isFinite = true) :
    a.numEq b = true ↔ a.units = b.units := by
  rw [numEq_of_isFinite ha hb, beq_iff_eq, key_eq_iff]

/-- Strict equality is the same under any two ways to compare numbers that agree on all of them. -/
theorem Heap.LooksLike.strictEquals (hl : h.LooksLike g) (hh : h.semantics.IsFaithful)
    (hg : g.semantics.IsFaithful) (x y : Value) : h.strictEquals x y = g.strictEquals x y := by
  cases hx : x.isFiniteNumber <;> cases hy : y.isFiniteNumber
  · by_cases hnan : x = .nan ∨ y = .nan
    · rw [strictEquals_nan hnan, strictEquals_nan hnan]
    by_cases habsent : AbsentPair x y
    · obtain ⟨rfl, rfl⟩ | ⟨rfl, rfl⟩ := habsent <;> rfl
    · rw [strictEquals_other hx hy hnan habsent, strictEquals_other hx hy hnan habsent, hl.sameValue]
  · rw [(strictEquals_number_other hy hx).2, (strictEquals_number_other hy hx).2]
  · rw [(strictEquals_number_other hx hy).1, (strictEquals_number_other hx hy).1]
  · rw [strictEquals_number hh hx hy, strictEquals_number hg hx hy]

section Loose
variable {R : Heap → Heap → Prop} (hI : Indiscernible R)
  (hstrict : ∀ h g, R h g → ∀ x y, h.strictEquals x y = g.strictEquals x y)
include hI

theorem blind_withUnboxed (v : Value) {compare : Value → HeapM Bool} (hcompare : ∀ p, (compare p).Blind R) :
    (withUnboxed v compare).Blind R :=
  (blind_toPrimitiveUnboxed hI v).bind fun p => .transient hI p (hcompare p)

include hstrict

/-- Loose equality tells heaps apart only if strict equality does. -/
theorem blind_looseEqualsWithin (fuel : Nat) (x y : Value) : (looseEqualsWithin fuel x y).Blind R := by
  induction fuel generalizing x y with
  | zero => exact .throw _
  | succ fuel ih =>
    obtain ⟨c, hc, hnext⟩ := exists_comparison x y
    rw [hnext]
    cases hc with
    | strict x' y' => exact .ask fun h g hR => hstrict h g hR x' y'
    | same x' y' => exact .ask fun h g hR => (hI.looks hR).sameValue x' y'
    | known b => exact .pure b
    | converted x' y' _ => exact ih x' y'
    | read s next _ => exact (blind_primitiveToNumber hI _).bind fun n => ih _ _
    | unboxed o next _ => exact blind_withUnboxed hI _ fun p => ih _ _

end Loose

/-- Finite doubles differ by less than the smallest magnitude just when they are equal. So strict equality answers
alike under the approximate semantics with that epsilon and under the exact ones, and loose equality ends with one
outcome and in one heap. -/
theorem equality_smallest_eq_exact (h : Heap) :
    (∀ a b : FiniteDouble,
      ({} : Semantics).numbersEqual a.val b.val = Semantics.exact.numbersEqual a.val b.val ∧
      ((a.val.sub b.val).abs.numLt Double.smallest = true ↔ a.val.units = b.val.units)) ∧
    ∀ x y : Value,
      (h.under {}).strictEquals x y = (h.under .exact).strictEquals x y ∧
      ∃ (outcome : Except Error Bool) (k : Heap), (looseEquals x y).runOn (h.under {}) = (outcome, k.under {}) ∧
        (looseEquals x y).runOn (h.under .exact) = (outcome, k.under .exact) := by
  have hdefault : Semantics.IsFaithful {} := .inl rfl
  have hexact : Semantics.IsFaithful .exact := .inr rfl
  have hstrict : ∀ h g, SameUnder {} .exact h g → ∀ x y, h.strictEquals x y = g.strictEquals x y := by
    rintro _ _ ⟨h⟩
    exact ((indiscernible_sameUnder {} .exact).looks (.mk h)).strictEquals hdefault hexact
  refine ⟨fun a b => ⟨?_, ?_⟩, fun x y => ⟨hstrict _ _ (.mk h) x y, ?_⟩⟩
  · rw [hdefault.numbersEqual_eq_numEq a.isFinite b.isFinite, hexact.numbersEqual_eq_numEq a.isFinite b.isFinite]
  · rw [Double.abs_sub_numLt_smallest a.isFinite b.isFinite, Double.numEq_iff_units a.isFinite b.isFinite]
  · exact exists_runOn_under (blind_looseEqualsWithin (indiscernible_sameUnder {} .exact) hstrict
      (h.objects.size + 4) x y) h

end ScriptCore
