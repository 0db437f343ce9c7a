import ScriptCore.Numeral.Exact
import ScriptCore.Double.Halfway
import ScriptCore.Proofs.Readings

/-! Digits behind a mark.

The digits of a marked literal are accumulated in double arithmetic. As long as they denote an integer with 53 bits
at most nothing is rounded. The digit that makes it longer is rounded with it, and every digit behind that one is
lost, since it is less than half of the step between doubles there (`accumulate_append`). So the value is the
double of the integer unless its first digits are halfway between two doubles, the lower of which is even: then
digits that are not zero should have taken it to the upper one (`toDouble?_marked`). -/
namespace ScriptCore

namespace Double

section Digit
variable {n k : Nat} (hn : n < 2 ^ 53) (hk : k < 53)
include hn hk

theorem exists_pattern_mul_two_pow : ∃ p, p < infinityPattern ∧ unitsOf p = n * 2 ^ k * one := by
  obtain ⟨p, hp⟩ := exists_unitsOf_mul_two_pow hn (k + 1074)
  rw [← two_pow_mul_one, ← Nat.mul_assoc] at hp
  refine ⟨p, Nat.lt_of_not_le fun hle => ?_, hp⟩
  have hlarge := unitsOf_le (Nat.le_trans (by omega : (k + 1074 + 2) * 2 ^ 52 ≤ 2047 * 2 ^ 52) hle)
  rw [hp, unitsOf_powerOfTwo, ← two_pow_mul_one, ← Nat.mul_assoc] at hlarge
  exact Nat.not_lt.mpr hlarge
    (Nat.mul_lt_mul_of_pos_right (Nat.mul_lt_mul_of_pos_right hn (Nat.two_pow_pos k)) one_pos)

/-- One digit more is not rounded before it is added. -/
theorem add_ofNat {m : Nat} (hm : m < 2 ^ 53) : (ofNat (n * 2 ^ k)).add (ofNat m) = ofNat (n * 2 ^ k + m) := by
  obtain ⟨p, hfinite, hp⟩ := exists_pattern_mul_two_pow hn hk
  have hpattern : (ofNat (n * 2 ^ k)).pattern = p := by
    rw [pattern_ofNat, ← hp, roundUnits_unitsOf p (Nat.le_of_lt hfinite)]
  have hunits : (ofNat (n * 2 ^ k)).units = (n * 2 ^ k * one : Nat) := by
    rw [units, isNegative_ofNat, if_neg Bool.false_ne_true, magnitude, hpattern, hp]
  have hsum : (ofNat (n * 2 ^ k)).units + (ofNat m).units = ((n * 2 ^ k + m : Nat) : Int) * one := by
    rw [hunits, units_ofNat hm]
    push_cast
    rw [Int.add_mul]
  have hneg : ¬ ((n * 2 ^ k + m : Nat) : Int) < 0 := by omega
  rw [add_of_units (decide_eq_true (hpattern ▸ hfinite)) (isFinite_ofNat hm) hsum fun _ => by
    rw [isNegative_ofNat, Bool.false_and]]
  rw [ofInt, Int.natAbs_natCast, decide_eq_false hneg, ofNat]

end Digit
end Double

namespace Literal

section Accumulated
variable {k : Nat} (hk : k < 53)

theorem accumulate_concat (radix : Nat) (ds : List Char) (c : Char) :
    accumulate radix (ds ++ [c]) =
      ((accumulate radix ds).mul (Double.ofNat radix)).add (Double.ofNat (integerOf radix [c])) := by
  rw [accumulate, List.foldl_concat, integerOf_singleton]
  rfl

theorem integerOf_concat (radix : Nat) (ds : List Char) (c : Char) :
    integerOf radix (ds ++ [c]) = integerOf radix ds * radix + integerOf radix [c] := by
  rw [integerOf_append, List.length_singleton, Nat.pow_one]

include hk

/-- Digits are exact until the one that makes the integer too long. -/
theorem accumulate_of_lt {ds : List Char} (hds : integerOf (2 ^ k) ds.dropLast < 2 ^ 53) :
    accumulate (2 ^ k) ds = .ofNat (integerOf (2 ^ k) ds) := by
  induction ds using List.reverseRecOn with
  | nil => exact (Double.ofSigned_zero false).symm
  | append_singleton ds c ih =>
    rw [List.dropLast_concat] at hds
    have hbefore := Nat.lt_of_le_of_lt (integerOf_dropLast_le (Nat.two_pow_pos k) ds) hds
    have hdigit : integerOf (2 ^ k) [c] < 2 ^ 53 := by
      rw [integerOf_singleton]
      exact Nat.lt_trans (getD_digitValue?_lt (Nat.two_pow_pos k) c) (Nat.pow_lt_pow_right (by decide) hk)
    rw [accumulate_concat, ih hbefore, Double.mul_ofNat_two_pow _ hk, Double.add_ofNat hds hk hdigit,
      integerOf_concat]

/-- Behind more than 53 bits digits are lost. -/
theorem accumulate_append {front : List Char} (hbefore : integerOf (2 ^ k) front.dropLast < 2 ^ 53)
    (hfront : 2 ^ 53 ≤ integerOf (2 ^ k) front) (back : List Char) :
    accumulate (2 ^ k) (front ++ back) = .ofNat (integerOf (2 ^ k) front * 2 ^ (k * back.length)) := by
  induction back using List.reverseRecOn with
  | nil => rw [List.append_nil, accumulate_of_lt hk hbefore, List.length_nil, Nat.mul_zero, Nat.pow_zero, Nat.mul_one]
  | append_singleton back c ih =>
    have hdigit : integerOf (2 ^ k) [c] < 2 ^ k := by
      rw [integerOf_singleton]
      exact getD_digitValue?_lt (Nat.two_pow_pos k) c
    have hlarge : 2 ^ 53 * 2 ^ k ≤ integerOf (2 ^ k) front * 2 ^ (k * back.length) * 2 ^ k :=
      Nat.mul_le_mul_right _ (Nat.le_trans hfront (Nat.le_mul_of_pos_right _ (Nat.two_pow_pos _)))
    rw [← List.append_assoc, accumulate_concat, ih, Double.mul_ofNat_two_pow _ hk,
      Double.add_ofNat_of_lt _ hk hlarge hdigit, List.length_append, List.length_singleton, Nat.mul_add, Nat.mul_one,
      Nat.pow_add, Nat.mul_assoc]

end Accumulated

/-- What makes an integer too long is one of its digits. -/
theorem exists_front {radix : Nat} {ds : List Char} (hds : 2 ^ 53 ≤ integerOf radix ds) :
    ∃ front back, ds = front ++ back ∧ integerOf radix front.dropLast < 2 ^ 53 ∧ 2 ^ 53 ≤ integerOf radix front := by
  induction ds using List.reverseRecOn with
  | nil =>
    rw [integerOf_nil] at hds
    omega
  | append_singleton ds c ih =>
    rcases Nat.lt_or_ge (integerOf radix ds) (2 ^ 53) with hlt | hge
    · exact ⟨ds ++ [c], [], (List.append_nil _).symm, by rwa [List.dropLast_concat], hds⟩
    · obtain ⟨front, back, rfl, hbefore, hfront⟩ := ih hge
      exact ⟨front, back ++ [c], List.append_assoc _ _ _, hbefore, hfront⟩

/-- The first digits make an integer that is too long and halfway above an even double, and what follows is more
than zeros. -/
def MissesTie (radix : Nat) (ds : List Char) : Prop :=
  ∃ front back, ds = front ++ back ∧ integerOf radix front.dropLast < 2 ^ 53 ∧
    Double.TiesDown (integerOf radix front) ∧ integerOf radix back ≠ 0

/-- Accumulating ends one double below the nearest one where a tie is missed, and in the nearest one elsewhere. -/
theorem accumulate_eq {k : Nat} (hpos : 0 < k) (hk : k < 53) (ds : List Char) :
    (MissesTie (2 ^ k) ds → (accumulate (2 ^ k) ds).isFinite = true →
      (accumulate (2 ^ k) ds).pattern + 1 = (Double.ofNat (integerOf (2 ^ k) ds)).pattern) ∧
    (¬ (MissesTie (2 ^ k) ds ∧ (accumulate (2 ^ k) ds).isFinite = true) →
      accumulate (2 ^ k) ds = .ofNat (integerOf (2 ^ k) ds)) := by
  have hinteger : ∀ front back : List Char, integerOf (2 ^ k) (front ++ back) =
      integerOf (2 ^ k) front * 2 ^ (k * back.length) + integerOf (2 ^ k) back := fun front back => by
    rw [integerOf_append, ← Nat.pow_mul]
  have hrest : ∀ back : List Char, integerOf (2 ^ k) back < 2 ^ (k * back.length) := fun back => by
    rw [Nat.pow_mul]
    exact integerOf_lt (Nat.one_lt_two_pow (Nat.ne_of_gt hpos)) back
  constructor
  · rintro ⟨front, back, rfl, hbefore, hties, hback⟩ hfinite
    have hlong := Double.two_pow_le_of_tiesDown hties
    rw [accumulate_append hk hbefore hlong] at hfinite ⊢
    have hmoved := Double.ofNat_append hlong (hrest back)
    rwa [if_pos ⟨hties, hback, hfinite⟩, ← hinteger] at hmoved
  · intro hnone
    rcases Nat.lt_or_ge (integerOf (2 ^ k) ds) (2 ^ 53) with hlt | hge
    · exact accumulate_of_lt hk (Nat.lt_of_le_of_lt (integerOf_dropLast_le (Nat.two_pow_pos k) ds) hlt)
    · obtain ⟨front, back, rfl, hbefore, hlong⟩ := exists_front hge
      rw [accumulate_append hk hbefore hlong] at hnone ⊢
      have hmoved := Double.ofNat_append hlong (hrest back)
      rwa [if_neg fun h => hnone ⟨⟨front, back, rfl, hbefore, h.1, h.2.1⟩, h.2.2⟩, ← hinteger] at hmoved

end Literal

namespace Text

/-- A text of decimal digits is read as the double of the integer they denote. -/
theorem toDouble?_of_areDigits {es : List Char} (hne : es ≠ []) (hes : Literal.AreDigits 10 es) :
    (ofString (String.ofList es)).toDouble? = some (.ofNat (Decimal.valueOf es)) := by
  have hspells : Literal.SpellsSigned (.decimal false es [] 0) es := by
    have hsigned :=
      @Literal.SpellsSigned.decimal false [] es [] [] [] 0 .absent hes .absent (by simpa using hne) .absent
    simpa using hsigned
  rw [toDouble?_of_spellsSigned hspells, Literal.value, List.append_nil, Double.ofDecimal_eq, List.length_nil,
    Int.natCast_zero, Int.sub_zero, Int.neg_zero, Int.toNat_zero, Nat.pow_zero, Nat.mul_one, Double.ofNat]

/-- Digits behind a mark are read as the double of the integer they denote, but for missed ties, where they are
read as the double below it. The same integer in decimal digits is always read as its double. -/
theorem toDouble?_marked {t : Text} {mark : Char} {radix : Nat} {ds : List Char}
    (ht : Numeral.Trimmed t.units (Utf16.ofString (String.ofList ('0' :: mark :: ds))))
    (hmark : (mark, radix) ∈ Literal.marks) (hne : ds ≠ []) (hds : Literal.AreDigits radix ds) :
    (∃ d, t.toDouble? = some d ∧ d.isNegative = false ∧
      (Literal.MissesTie radix ds → d.isFinite = true →
        d.pattern + 1 = (Double.ofNat (Literal.integerOf radix ds)).pattern) ∧
      (¬ (Literal.MissesTie radix ds ∧ d.isFinite = true) → d = .ofNat (Literal.integerOf radix ds))) ∧
    ∀ es, es ≠ [] → Literal.AreDigits 10 es → Decimal.valueOf es = Literal.integerOf radix ds →
      (ofString (String.ofList es)).toDouble? = some (.ofNat (Literal.integerOf radix ds)) := by
  have hradixes : ∀ m ∈ Literal.marks, m.2 ∈ [2, 8, 16] ∧ ∃ k ∈ [1, 3, 4], m.2 = 2 ^ k := by decide
  obtain ⟨hsmall, k, hk, rfl⟩ := hradixes _ hmark
  have hbound : 0 < k ∧ k < 53 := by
    simp only [List.mem_cons, List.not_mem_nil, or_false] at hk
    omega
  obtain ⟨hmissed, hmet⟩ := Literal.accumulate_eq hbound.1 hbound.2 ds
  refine ⟨⟨Literal.accumulate (2 ^ k) ds, ?_, (Literal.accumulate_isUnsigned hsmall ds).2, hmissed, hmet⟩, ?_⟩
  · exact toDouble?_eq_some.mpr ⟨_, _, ht, .marked hmark hne hds, rfl⟩
  · intro es hes hdigits hvalue
    rw [toDouble?_of_areDigits hes hdigits, hvalue]

/-- Sixteen above `2 ^ 57` are halfway, but seventeen are not. -/
theorem toDouble?_marked_tie :
    ∃ d, (ofString "\t0x200000000000011 ").toDouble? = some d ∧
      d.pattern + 1 = (Double.ofNat (2 ^ 57 + 17)).pattern := by
  obtain ⟨d, hd, -, hmissed, -⟩ := (@toDouble?_marked (ofString "\t0x200000000000011 ") 'x' 16
    "200000000000011".toList (Numeral.trimmed_iff.mpr (by decide)) (by decide) (by decide) (by decide)).1
  have hties : Literal.MissesTie 16 "200000000000011".toList :=
    ⟨"20000000000001".toList, ['1'], by decide, by decide, by decide, by decide⟩
  have hfinite : ∀ d, (ofString "\t0x200000000000011 ").toDouble? = some d → d.isFinite = true := by
    decide +kernel
  exact ⟨d, hd, hmissed hties (hfinite d hd)⟩

/-- The same integer in hexadecimal and in decimal digits. It is nearer to the double that the decimal digits give. -/
theorem hexadecimal_ne_decimal :
    let lower : Double := ⟨0x4380000000000000⟩
    let upper : Double := ⟨0x4380000000000001⟩
    (ofString "0x200000000000011").toDouble? = some lower ∧
      (ofString "144115188075855889").toDouble? = some upper ∧
      Literal.integerOf 16 "200000000000011".toList = Decimal.valueOf "144115188075855889".toList ∧
      144115188075855889 * Double.one = lower.magnitude + 17 * Double.one ∧
      upper.magnitude = 144115188075855889 * Double.one + 15 * Double.one := by
  decide +kernel

end Text
end ScriptCore
