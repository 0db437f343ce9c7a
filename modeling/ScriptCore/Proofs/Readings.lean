import Mathlib.Data.List.DropRight
import ScriptCore.Double.Monotone
import ScriptCore.Proofs.Numerals

/-! Texts read as numbers.

What is left of a text without the blanks around it is determined, and so are its characters when they are
ASCII. With the grammar of literals this says which texts are numerals and what they are worth
(`toDouble?_eq_some`). The values are numbers and have the signs that are written: digits of other radixes are
accumulated without ever leaving the numbers that have no minus sign, and decimals are rounded with their sign.
`toDouble?_grammar` puts this together. -/
namespace ScriptCore

-- What is said of the characters of a list is checked for these, not for all characters.
attribute [local instance (2000)] List.decidableBAll

/-! ### Blanks -/

namespace Numeral
section Blanks
variable {units rest : List UInt16}

theorem trim_eq_rdropWhile (units : List UInt16) : trim units = (units.dropWhile isBlank).rdropWhile isBlank := rfl

theorem rdropWhile_append_of_pos {after : List UInt16} (hafter : ∀ u ∈ after, isBlank u = true) :
    (units ++ after).rdropWhile isBlank = units.rdropWhile isBlank := by
  rw [List.rdropWhile, List.reverse_append,
    List.dropWhile_append_of_pos fun u hu => hafter u (List.mem_reverse.mp hu), List.rdropWhile]

/-- Blanks around a text do not change what is left of it. -/
theorem trim_append (units : List UInt16) {before after : List UInt16} (hbefore : ∀ u ∈ before, isBlank u = true)
    (hafter : ∀ u ∈ after, isBlank u = true) : trim (before ++ units ++ after) = trim units := by
  rw [trim_eq_rdropWhile, List.append_assoc, List.dropWhile_append_of_pos hbefore, List.dropWhile_append]
  split
  · rename_i hempty
    have hunits : units.dropWhile isBlank = [] := List.isEmpty_iff.mp hempty
    rw [trim_eq_rdropWhile, hunits, List.dropWhile_eq_nil_iff.mpr hafter]
  · rw [rdropWhile_append_of_pos hafter, trim_eq_rdropWhile]

theorem trim_eq_self (hfirst : ∀ u, rest.head? = some u → isBlank u = false)
    (hlast : ∀ u, rest.getLast? = some u → isBlank u = false) : trim rest = rest := by
  have hdrop : rest.dropWhile isBlank = rest :=
    List.dropWhile_eq_self_iff.mpr fun hpos => by
      rw [hfirst _ (List.head?_eq_getElem? ▸ List.getElem?_eq_getElem hpos)]
      exact Bool.false_ne_true
  rw [trim_eq_rdropWhile, hdrop, List.rdropWhile_eq_self_iff]
  intro hne
  rw [hlast _ (List.getLast?_eq_some_getLast hne)]
  exact Bool.false_ne_true

theorem trimmed_trim (units : List UInt16) : Trimmed units (trim units) where
  surrounded := by
    refine ⟨units.takeWhile isBlank, (units.dropWhile isBlank).rtakeWhile isBlank, ?_,
      fun u hu => List.mem_takeWhile_imp hu, fun u hu => List.mem_rtakeWhile_imp hu⟩
    rw [trim_eq_rdropWhile, List.append_assoc, List.rdropWhile_append_rtakeWhile,
      List.takeWhile_append_dropWhile]
  first u hu := by
    obtain ⟨tail, htail⟩ := List.rdropWhile_prefix isBlank (units.dropWhile isBlank)
    have hhead : (units.dropWhile isBlank).head? = some u := by
      rw [← htail, List.head?_append, ← trim_eq_rdropWhile, hu, Option.some_or]
    simpa [hhead] using List.head?_dropWhile_not isBlank units
  last u hu := by
    obtain ⟨hne, rfl⟩ := List.mem_getLast?_eq_getLast hu
    exact Bool.eq_false_iff.mpr (List.rdropWhile_last_not isBlank _ hne)

/-- What is left of a text is determined. -/
theorem trimmed_iff : Trimmed units rest ↔ rest = trim units := by
  constructor
  · rintro ⟨⟨before, after, rfl, hbefore, hafter⟩, hfirst, hlast⟩
    rw [trim_append rest hbefore hafter, trim_eq_self hfirst hlast]
  · rintro rfl
    exact trimmed_trim units

end Blanks

/-! ### Characters -/

/-- A unit below `0x80` is a character, whose only unit it is. -/
theorem ofChar_ofNat {u : UInt16} (hu : u < 0x80) :
    (Char.ofNat u.toNat).toNat < 0x80 ∧ Utf16.ofChar (Char.ofNat u.toNat) = [u] := by
  have hlt : u.toNat < 0x80 := UInt16.lt_iff_toNat_lt.mp hu
  have hchar : (Char.ofNat u.toNat).toNat = u.toNat := by
    rw [Char.ofNat, dif_pos (.inl (by omega))]
    rfl
  rw [Utf16.ofChar, hchar, if_pos (by omega), UInt16.ofNat_toNat]
  exact ⟨hlt, rfl⟩

/-- A character below `0x80` has one unit, and is the character of it. -/
theorem ofChar_eq {c : Char} (hc : c.toNat < 0x80) :
    ∃ u : UInt16, u < 0x80 ∧ Utf16.ofChar c = [u] ∧ Char.ofNat u.toNat = c := by
  have hunit : (UInt16.ofNat c.toNat).toNat = c.toNat := by
    rw [UInt16.toNat_ofNat', Nat.mod_eq_of_lt (by omega)]
  refine ⟨UInt16.ofNat c.toNat, ?_, if_pos (by omega), ?_⟩
  · rw [UInt16.lt_iff_toNat_lt, hunit]
    exact hc
  · rw [hunit, Char.ofNat_toNat]

theorem ascii?_cons {u : UInt16} {units : List UInt16} {cs : List Char} :
    ascii? (u :: units) = some cs ↔
      u < 0x80 ∧ ∃ tail, ascii? units = some tail ∧ cs = Char.ofNat u.toNat :: tail := by
  unfold ascii?
  rw [List.mapM_cons]
  by_cases hu : u < 0x80 <;> simp [hu, Option.bind_eq_some_iff, @eq_comm _ cs]

/-- The characters of a text are those that it is made of, if they are ASCII. -/
theorem ascii?_eq_some {units : List UInt16} {cs : List Char} :
    ascii? units = some cs ↔ (∀ c ∈ cs, c.toNat < 0x80) ∧ units = cs.flatMap Utf16.ofChar := by
  induction units generalizing cs with
  | nil =>
    cases cs with
    | nil => simp [ascii?]
    | cons c tail =>
      have hne : Utf16.ofChar c ≠ [] := by
        unfold Utf16.ofChar
        split <;> simp
      simp [ascii?, hne]
  | cons u units ih =>
    rw [ascii?_cons]
    constructor
    · rintro ⟨hu, tail, htail, rfl⟩
      obtain ⟨hascii, hunits⟩ := ih.mp htail
      obtain ⟨hchar, hunit⟩ := ofChar_ofNat hu
      refine ⟨List.forall_mem_cons.mpr ⟨hchar, hascii⟩, ?_⟩
      rw [List.flatMap_cons, hunit, ← hunits, List.singleton_append]
    · rintro ⟨hascii, hunits⟩
      cases cs with
      | nil => cases hunits
      | cons c tail =>
        obtain ⟨hchar, hascii⟩ := List.forall_mem_cons.mp hascii
        obtain ⟨v, hv, hunit, hback⟩ := ofChar_eq hchar
        rw [List.flatMap_cons, hunit, List.singleton_append] at hunits
        injection hunits with hu hunits
        subst hu
        exact ⟨hv, tail, ih.mpr ⟨hascii, hunits⟩, by rw [hback]⟩

end Numeral

/-! ### Values -/

namespace Double

/-- Numbers without a minus sign. -/
def IsUnsigned (d : Double) : Prop := d.isNaN = false ∧ d.isNegative = false

theorem isUnsigned_ofRatio (num den : Nat) : (ofRatio false num den).IsUnsigned :=
  ⟨isNaN_ofRatio _ _ _, isNegative_ofRatio _ _ _⟩

section Unsigned
variable {a b : Double} (ha : a.IsUnsigned) (hb : b.IsUnsigned)
include ha hb

theorem IsUnsigned.mul (hfinite : b.isFinite = true) (hzero : b.isZero = false) : (a.mul b).IsUnsigned := by
  have hnegative : (a.isNegative != b.isNegative) = false := by rw [ha.2, hb.2, bne_self_eq_false]
  simp only [Double.mul, hnegative, ha.1, hb.1, isInfinite_of_isFinite hfinite, hzero, Bool.or_self,
    Bool.false_eq_true, if_false]
  split
  · exact ⟨by decide, by decide⟩
  · exact isUnsigned_ofRatio _ _

theorem IsUnsigned.add : (a.add b).IsUnsigned := by
  have hsum : 0 ≤ a.units + b.units := by
    rw [units, units, ha.2, hb.2, if_neg Bool.false_ne_true, if_neg Bool.false_ne_true]
    exact Int.add_nonneg (Int.natCast_nonneg _) (Int.natCast_nonneg _)
  have hsign : (if a.units + b.units = 0 then a.isNegative && b.isNegative
      else decide (a.units + b.units < 0)) = false := by
    rw [ha.2, decide_eq_false (Int.not_lt.mpr hsum), Bool.false_and, ite_self]
  have hsame : (b.isInfinite && a.isNegative != b.isNegative) = false := by
    rw [ha.2, hb.2, bne_self_eq_false, Bool.and_false]
  simp only [Double.add, hsign, hsame, ha.1, hb.1, Bool.or_self, Bool.false_eq_true, if_false]
  split
  · exact ha
  · split
    · exact hb
    · exact isUnsigned_ofRatio _ _

end Unsigned
end Double

namespace Literal

theorem accumulate_isUnsigned {radix : Nat} (hr : radix ∈ [2, 8, 16]) (ds : List Char) :
    (accumulate radix ds).IsUnsigned := by
  have hradix : ∀ r ∈ [2, 8, 16], (Double.ofNat r).isFinite = true ∧ (Double.ofNat r).isZero = false := by
    decide +kernel
  have hzero : (Double.zero false).IsUnsigned := ⟨by decide, by decide⟩
  unfold accumulate
  generalize Double.zero false = start at hzero
  induction ds generalizing start with
  | nil => exact hzero
  | cons c ds ih =>
    apply ih
    have hproduct := hzero.mul (Double.isUnsigned_ofRatio _ _) (hradix radix hr).1 (hradix radix hr).2
    exact hproduct.add (Double.isUnsigned_ofRatio _ _)

/-- Only a minus sign is written with a minus. -/
theorem SpellsSign.head_append {negative : Bool} {sign : List Char} (hs : SpellsSign negative sign)
    {body : List Char} (hbody : body.head? ≠ some '-') :
    (sign ++ body).head? = some '-' ↔ negative = true := by
  cases hs with
  | absent => simpa using hbody
  | plus => simp
  | minus => simp

/-- The value of a literal is a number with the sign that the literal is written with. -/
theorem Spells.isNaN_isNegative {literal : Literal} {cs : List Char} (hs : Spells literal cs) :
    literal.value.isNaN = false ∧ (literal.value.isNegative = true ↔ cs.head? = some '-') := by
  cases hs with
  | blank => decide
  | @marked mark radix ds hmark hne hds =>
    have hradix : ∀ m ∈ marks, m.2 ∈ [2, 8, 16] := by decide
    obtain ⟨hnumber, hsign⟩ := accumulate_isUnsigned (hradix _ hmark) ds
    exact ⟨hnumber, by simp [value, hsign]⟩
  | signed hsigned =>
    cases hsigned with
    | @infinity negative sign hsign =>
      rw [hsign.head_append (by decide)]
      cases negative <;> decide
    | @decimal negative sign whole fraction point exponent e hsign hwhole hpoint hne he =>
      have hbody : (whole ++ (point ++ exponent)).head? ≠ some '-' := fun hhead =>
        absurd (head_decimal hwhole hpoint hne hhead) (by decide)
      rw [hsign.head_append hbody, value, Double.ofDecimal_eq, Double.isNaN_ofRatio, Double.isNegative_ofRatio]
      exact ⟨rfl, Iff.rfl⟩

/-- Literals are written in ASCII. -/
theorem Spells.lt_of_mem {literal : Literal} {cs : List Char} (hs : Spells literal cs) {c : Char} (hc : c ∈ cs) :
    c.toNat < 0x80 := by
  cases hs with
  | blank => cases hc
  | @marked mark radix ds hmark hne hds =>
    have hmarks : ∀ m ∈ marks, m.1.toNat < 0x80 := by decide
    rcases List.mem_cons.mp hc with rfl | hc
    · decide
    · rcases List.mem_cons.mp hc with rfl | hc
      · exact hmarks _ hmark
      · exact lt_of_mem_digitsOf (hds c hc)
  | signed hsigned =>
    have hsmall : ∀ c ∈ signedChars, c.toNat < 0x80 := by decide
    exact hsmall c (hsigned.mem_signedChars hc)

end Literal

/-! ### Texts -/

namespace Text

theorem toDouble?_eq_some {t : Text} {d : Double} :
    t.toDouble? = some d ↔ ∃ literal cs, Numeral.Trimmed t.units (Utf16.ofString (String.ofList cs)) ∧
      Literal.Spells literal cs ∧ literal.value = d := by
  simp only [toDouble?, toDoubleInBase?, Option.bind_eq_bind, Option.bind_eq_some_iff, Literal.inBase?,
    if_true, Option.pure_def, Option.some.injEq, Numeral.ascii?_eq_some, Literal.ofChars?_eq_some,
    Numeral.trimmed_iff, Utf16.ofString, String.toList_ofList]
  constructor
  · rintro ⟨cs, ⟨_, htrim⟩, literal, hspells, hvalue⟩
    exact ⟨literal, cs, htrim.symm, hspells, hvalue⟩
  · rintro ⟨literal, cs, htrim, hspells, hvalue⟩
    exact ⟨cs, ⟨fun c hc => hspells.lt_of_mem hc, htrim.symm⟩, literal, hspells, hvalue⟩

/-- No blank belongs to a signed literal, so the text that spells it is left as it is. -/
theorem trimmed_of_spellsSigned {literal : Literal} {cs : List Char} (hs : Literal.SpellsSigned literal cs) :
    Numeral.Trimmed (ofString (String.ofList cs)).units (Utf16.ofString (String.ofList cs)) := by
  have hunits : ∀ c ∈ Literal.signedChars, ∀ u ∈ Utf16.ofChar c, Numeral.isBlank u = false := by decide
  have hfull : ∀ u ∈ Utf16.ofString (String.ofList cs), Numeral.isBlank u = false := fun u hu => by
    rw [Utf16.ofString, String.toList_ofList, List.mem_flatMap] at hu
    obtain ⟨c, hc, hu⟩ := hu
    exact hunits c (hs.mem_signedChars hc) u hu
  rw [units_ofString, Numeral.trimmed_iff, Numeral.trim_eq_self (fun u hu => hfull u (List.mem_of_mem_head? hu))
    fun u hu => hfull u (List.mem_of_getLast? hu)]

theorem toDouble?_of_spellsSigned {literal : Literal} {cs : List Char} (hs : Literal.SpellsSigned literal cs) :
    (ofString (String.ofList cs)).toDouble? = some literal.value :=
  toDouble?_eq_some.mpr ⟨literal, cs, trimmed_of_spellsSigned hs, .signed hs, rfl⟩

/-- What a text is read as depends on what stands between its blanks. -/
theorem toDouble?_congr {s t : Text} (h : Numeral.trim s.units = Numeral.trim t.units) :
    s.toDouble? = t.toDouble? := by
  unfold toDouble? toDoubleInBase?
  rw [h]

/-- A text is a numeral just when a literal stands between its blanks. It has the value of that literal, a
number with the sign that is written. Nothing between the blanks is zero, and blanks do not count. -/
theorem toDouble?_grammar (t : Text) :
    (∃! rest, Numeral.Trimmed t.units rest) ∧
      (t.toDouble?.isSome = true ↔ ∃ literal cs,
        Numeral.Trimmed t.units (Utf16.ofString (String.ofList cs)) ∧ Literal.Spells literal cs) ∧
      (∀ d, t.toDouble? = some d → d.isNaN = false) ∧
      (∀ literal cs, Numeral.Trimmed t.units (Utf16.ofString (String.ofList cs)) → Literal.Spells literal cs →
        ∃ d, t.toDouble? = some d ∧ d = literal.value ∧ (d.isNegative = true ↔ cs.head? = some '-')) ∧
      (Numeral.Trimmed t.units [] → t.toDouble? = some (Double.zero false)) ∧
      ∀ before after, (∀ u ∈ before, Numeral.isBlank u = true) → (∀ u ∈ after, Numeral.isBlank u = true) →
        (ofUnits (before ++ t.units ++ after)).toDouble? = t.toDouble? := by
  refine ⟨⟨_, Numeral.trimmed_trim _, fun rest hrest => Numeral.trimmed_iff.mp hrest⟩, ?_, ?_, ?_, ?_, ?_⟩
  · simp only [Option.isSome_iff_exists, toDouble?_eq_some]
    constructor
    · rintro ⟨_, literal, cs, htrim, hspells, _⟩
      exact ⟨literal, cs, htrim, hspells⟩
    · rintro ⟨literal, cs, htrim, hspells⟩
      exact ⟨literal.value, literal, cs, htrim, hspells, rfl⟩
  · intro d hd
    obtain ⟨literal, cs, _, hspells, rfl⟩ := toDouble?_eq_some.mp hd
    exact hspells.isNaN_isNegative.1
  · intro literal cs htrim hspells
    exact ⟨literal.value, toDouble?_eq_some.mpr ⟨literal, cs, htrim, hspells, rfl⟩, rfl,
      hspells.isNaN_isNegative.2⟩
  · intro htrim
    exact toDouble?_eq_some.mpr ⟨.blank, [], htrim, .blank, rfl⟩
  · intro before after hbefore hafter
    apply toDouble?_congr
    rw [units_ofUnits, Numeral.trim_append _ hbefore hafter]

/-- Between blanks a minus makes a zero negative. -/
theorem toDouble?_grammar_negativeZero :
    ∃ d, (ofString " -0.\n").toDouble? = some d ∧ d.isZero = true ∧ d.isNegative = true := by
  have htrim : Numeral.Trimmed (ofString " -0.\n").units (Utf16.ofString (String.ofList ['-', '0', '.'])) :=
    Numeral.trimmed_iff.mpr (by decide)
  have hspells : Literal.Spells (.decimal true ['0'] [] 0) ['-', '0', '.'] :=
    .signed (@Literal.SpellsSigned.decimal true ['-'] ['0'] [] ['.'] [] 0 .minus (by decide)
      (.point (by decide)) (by decide) .absent)
  obtain ⟨d, hd, rfl, hsign⟩ := (toDouble?_grammar (ofString " -0.\n")).2.2.2.1 _ _ htrim hspells
  exact ⟨_, hd, by decide, hsign.mpr rfl⟩

end Text
end ScriptCore
