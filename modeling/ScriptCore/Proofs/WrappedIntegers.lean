import Mathlib.Data.Int.ModEq
import ScriptCore.Double.IntegerPart
import ScriptCore.Proofs.Representations

/-! Integers that wrap around.

The conversions to integers of 32 and 16 bits take the integer part of a number modulo a power of two. They do
so by a remainder of doubles, which is exact (`Double.units_modulo_trunc`), so that nothing is left to saturate
for the cast at the end (`Double.toNat_wrapped`). Integers and truth values that are answered at once are
answered alike (`toUInt32_eq`, `toSmallInteger_eq`). -/
namespace ScriptCore

open Heap HeapM

/-! ### Words -/

theorem toNat_toUInt32 (n : Int32) : (n.toUInt32.toNat : Int) = n.toInt % 2 ^ 32 := by
  have hword : n.toUInt32.toNat = (BitVec.ofInt 32 n.toInt).toNat :=
    congrArg BitVec.toNat (BitVec.ofInt_toInt (x := n.toBitVec)).symm
  rw [hword, BitVec.toNat_ofInt, Int.toNat_of_nonneg (Int.emod_nonneg _ (by decide))]
  rfl

section Words
variable {t : Int} {u : UInt32} (hu : (u.toNat : Int) = t % 2 ^ 32)
include hu

theorem uint32_modEq_iff (k : UInt32) : k.toNat ≡ t [ZMOD 2 ^ 32] ↔ k = u := by
  have hk := k.toNat_lt
  rw [← UInt32.toNat_inj, Int.ModEq]
  omega

theorem int32_modEq_iff (k : Int32) : k.toInt ≡ t [ZMOD 2 ^ 32] ↔ k = u.toInt32 := by
  have hk := toNat_toUInt32 k
  have hword : k = u.toInt32 ↔ k.toUInt32 = u := ⟨fun heq => by rw [heq]; rfl, fun heq => by rw [← heq]; rfl⟩
  rw [hword, ← UInt32.toNat_inj, Int.ModEq]
  omega

theorem uint16_modEq_iff (k : UInt16) : k.toNat ≡ t [ZMOD 2 ^ 16] ↔ k = u.toUInt16 := by
  have hk := k.toNat_lt
  rw [← UInt16.toNat_inj, UInt32.toNat_toUInt16, Int.ModEq]
  omega

end Words

/-! ### Doubles -/

namespace Double

theorem wrapped_of_not_isFinite {d : Double} (hd : d.isFinite = false) : d.wrapped = 0 := by
  rw [wrapped, hd, if_neg Bool.false_ne_true]

section Finite
variable {d : Double} (hd : d.isFinite = true)
include hd

theorem units_modulo_trunc :
    (d.trunc.modulo (ofNat (2 ^ 32))).isFinite = true ∧
      (d.trunc.modulo (ofNat (2 ^ 32))).units = d.integerPart % 2 ^ 32 * one :=
  units_modulo (isFinite_trunc hd) (units_trunc hd) (by decide) (by decide)

theorem toNat_wrapped : (d.wrapped.toNat : Int) = d.integerPart % 2 ^ 32 := by
  obtain ⟨hfinite, hunits⟩ := units_modulo_trunc hd
  rw [wrapped, hd, if_pos rfl]
  exact toUInt32_of_units hfinite hunits (Int.emod_nonneg _ (by decide)) (Int.emod_lt_of_pos _ (by decide))

end Finite

theorem wrapped_ofInt (n : Int32) : (ofInt n.toInt).wrapped = n.toUInt32 := by
  have hn := natAbs_toInt_lt n
  have hword := toNat_wrapped (isFinite_ofInt hn)
  rw [integerPart_ofInt hn, ← toNat_toUInt32, Int.natCast_inj] at hword
  exact UInt32.toNat_inj.mp hword

end Double

/-! ### Conversions -/

/-- An integer is answered at once as it would be by way of its double. -/
theorem toUInt32_eq (v : Value) : toUInt32 v = (do return (← toNumber v).toDouble.wrapped) := by
  cases v with
  | int32 n => exact congrArg pure (Double.wrapped_ofInt n).symm
  | _ => simp only [toUInt32, toDouble, bind_assoc, pure_bind]

theorem toInt32_eq (v : Value) : toInt32 v = (do return (← toNumber v).toDouble.wrapped.toInt32) := by
  cases v with
  | int32 n => exact congrArg (fun u : UInt32 => (pure u.toInt32 : HeapM Int32)) (Double.wrapped_ofInt n).symm
  | _ => simp only [toInt32, toUInt32_eq, bind_assoc, pure_bind]

theorem toUInt16_eq (v : Value) : toUInt16 v = (do return (← toNumber v).toDouble.wrapped.toUInt16) := by
  simp only [toUInt16, toUInt32_eq, bind_assoc, pure_bind]

/-- Where the integer is known to be small, truth values are answered at once as well. -/
theorem toSmallInteger_eq (v : Value) : toSmallInteger v = toInt32 v := by
  cases v with
  | boolean b =>
    have hword := Double.wrapped_ofInt (if b then 1 else 0)
    rw [toInt32_eq]
    exact congrArg (fun u : UInt32 => (pure u.toInt32 : HeapM Int32)) hword.symm
  | _ => rfl

/-- A conversion whose result is a function of the number of a value. -/
theorem runOn_map_toNumber {α : Type} {h h' : Heap} {v n : Value} (hn : (toNumber v).runOn h = (.ok n, h'))
    (f : Value → α) : (do return f (← toNumber v) : HeapM α).runOn h = (.ok (f n), h') := by
  rw [runOn_bind, hn]
  rfl

/-- Integers of 32 and 16 bits are congruent to the integer part of the number of a value, and no others are. What
is not finite counts as zero. Neither the integer part nor its remainder is rounded, and the ways without a
detour over doubles give the same answers. -/
theorem toUInt32_modEq (h h' : Heap) (v n : Value) (hn : (toNumber v).runOn h = (.ok n, h')) :
    ∃ (u : UInt32) (i : Int32) (w : UInt16),
      (toUInt32 v).runOn h = (.ok u, h') ∧ (toInt32 v).runOn h = (.ok i, h') ∧
      (toUInt16 v).runOn h = (.ok w, h') ∧
      (toSmallInteger v).runOn h = (.ok i, h') ∧ u = n.toDouble.wrapped ∧
      (n.isFiniteNumber = false → u = 0 ∧ i = 0 ∧ w = 0) ∧
      (n.isFiniteNumber = true →
        (∀ k : UInt32, k.toNat ≡ n.toDouble.integerPart [ZMOD 2 ^ 32] ↔ k = u) ∧
        (∀ k : Int32, k.toInt ≡ n.toDouble.integerPart [ZMOD 2 ^ 32] ↔ k = i) ∧
        (∀ k : UInt16, k.toNat ≡ n.toDouble.integerPart [ZMOD 2 ^ 16] ↔ k = w) ∧
        n.toDouble.trunc.units = n.toDouble.integerPart * Double.one ∧
        (n.toDouble.trunc.modulo (Double.ofNat (2 ^ 32))).units =
          n.toDouble.integerPart % 2 ^ 32 * Double.one) := by
  have hsigned : (toInt32 v).runOn h = (.ok n.toDouble.wrapped.toInt32, h') := by
    rw [toInt32_eq, runOn_map_toNumber hn]
  refine ⟨n.toDouble.wrapped, n.toDouble.wrapped.toInt32, n.toDouble.wrapped.toUInt16, ?_, hsigned, ?_, ?_, rfl,
    fun hinfinite => ?_, fun hfinite => ?_⟩
  · rw [toUInt32_eq, runOn_map_toNumber hn]
  · rw [toUInt16_eq, runOn_map_toNumber hn]
  · rw [toSmallInteger_eq, hsigned]
  · have hd := (Value.isFinite_toDouble_eq (isNumeric_of_toNumber hn)).trans hinfinite
    rw [Double.wrapped_of_not_isFinite hd]
    exact ⟨rfl, rfl, rfl⟩
  · have hd := n.isFinite_toDouble hfinite
    have hword := Double.toNat_wrapped hd
    exact ⟨uint32_modEq_iff hword, int32_modEq_iff hword, uint16_modEq_iff hword, Double.units_trunc hd,
      (Double.units_modulo_trunc hd).2⟩

/-- The negative of `2 ^ 32 + 1` is one below a multiple of `2 ^ 32`. -/
theorem toUInt32_modEq_below :
    (toUInt32 (.double ⟨⟨0xc1f0000000100000⟩, by decide⟩)).runOn (Heap.new {}) =
      (.ok 0xffffffff, Heap.new {}) ∧
    (toInt32 (.double ⟨⟨0xc1f0000000100000⟩, by decide⟩)).runOn (Heap.new {}) =
      (.ok (-1), Heap.new {}) ∧
    (toUInt16 (.double ⟨⟨0xc1f0000000100000⟩, by decide⟩)).runOn (Heap.new {}) =
      (.ok 0xffff, Heap.new {}) := by
  obtain ⟨u, i, w, hu, hi, hw, -, -, -, hfinite⟩ :=
    toUInt32_modEq (Heap.new {}) (Heap.new {}) (.double ⟨⟨0xc1f0000000100000⟩, by decide⟩) _ rfl
  obtain ⟨hu', hi', hw', -⟩ := hfinite rfl
  have hpart : (Value.double ⟨⟨0xc1f0000000100000⟩, by decide⟩).toDouble.integerPart = -4294967297 := by
    decide +kernel
  rw [hpart] at hu' hi' hw'
  obtain rfl := (hu' 0xffffffff).mp (by decide)
  obtain rfl := (hi' (-1)).mp (by decide)
  obtain rfl := (hw' 0xffff).mp (by decide)
  exact ⟨hu, hi, hw⟩

end ScriptCore
