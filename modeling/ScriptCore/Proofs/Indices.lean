import ScriptCore.Proofs.CanonicalTexts
import ScriptCore.Proofs.FiniteTexts
import ScriptCore.Proofs.Holders
import ScriptCore.Proofs.OperandDispatch

/-! Indices as keys.

An array and a wrapper of a string have an element for each index below their length. Keys are texts, and are looked
at as they are shown, which is unit by unit if that shows digits (`Text.toList_display`). So the one text that names
an index is its numeral: digits without a sign or a leading zero (`arrayIndex?_eq_some`). Numbers
become keys by their texts. An integer that is not negative is written as its numeral as long as it has
few digits, other integers with a sign or an exponent, which no numeral has (`indexOf_integer`). So a number is a key
of the object just when it is an integer from zero up to the length. -/
namespace ScriptCore

open Heap HeapM

-- What is said of the elements of a list is checked for these, not for all characters and code units.
attribute [local instance (2000)] List.decidableBAll

/-! ### Numerals -/

namespace Decimal

/-- Digits without a leading zero, unless they are a zero alone. -/
structure IsCanonical (cs : List Char) : Prop where
  areDigits : Literal.AreDigits 10 cs
  ne_nil : cs ≠ []
  leading : cs.length = 1 ∨ cs.head? ≠ some '0'

theorem head?_digits {n : Nat} (hn : 0 < n) : (digits n).head? ≠ some '0' := by
  induction n using Nat.strongRecOn with
  | ind n ih =>
    rw [digits, Nat.toDigits_eq_if (by decide)]
    split
    · rename_i hlt
      have hsingle : ∀ d < 10, 0 < d → [Nat.digitChar d].head? ≠ some '0' := by decide
      exact hsingle n hlt hn
    · rename_i hle
      have hrest := ih (n / 10) (by omega) (by omega)
      cases hdigits : digits (n / 10) with
      | nil => exact absurd hdigits Nat.toDigits_ne_nil
      | cons c cs =>
        rw [hdigits] at hrest
        rw [show Nat.toDigits 10 (n / 10) = c :: cs from hdigits]
        exact hrest

theorem isCanonical_digits (n : Nat) : IsCanonical (digits n) where
  areDigits := Literal.areDigits_digits n
  ne_nil := Nat.toDigits_ne_nil
  leading := by
    rcases Nat.eq_zero_or_pos n with rfl | hn
    · exact .inl rfl
    · exact .inr (head?_digits hn)

theorem digits_of_char : ∀ c ∈ Literal.digitsOf 10, c.toNat - 48 < 10 ∧ digits (c.toNat - 48) = [c] := by decide

/-- Digits are those of their value, unless zeros stand in front. -/
theorem digits_valueOf {cs : List Char} (hcs : IsCanonical cs) : digits (valueOf cs) = cs := by
  induction cs using List.reverseRecOn with
  | nil => exact absurd rfl hcs.ne_nil
  | append_singleton cs c ih =>
    obtain ⟨hdigits, hlast⟩ := Literal.areDigits_append.mp hcs.areDigits
    obtain ⟨hlt, hchar⟩ := digits_of_char c (hlast c (List.mem_singleton_self c))
    have hvalue : valueOf (cs ++ [c]) = 10 * valueOf cs + (c.toNat - 48) := by
      rw [valueOf_append, List.length_singleton, Nat.pow_one]
      simp [valueOf, pushDigit]
    rw [hvalue]
    cases cs with
    | nil => rw [show 10 * valueOf [] + (c.toNat - 48) = c.toNat - 48 from Nat.zero_add _, hchar, List.nil_append]
    | cons d ds =>
      have hhead : (d :: ds).head? ≠ some '0' := by
        refine hcs.leading.resolve_left fun hlength => ?_
        simp at hlength
      have hrest := ih ⟨hdigits, List.cons_ne_nil d ds, .inr hhead⟩
      -- The value of the rest is not zero, whose only digit is a zero.
      have hpos : 0 < valueOf (d :: ds) := by
        refine Nat.pos_of_ne_zero fun hzero => ?_
        rw [hzero] at hrest
        rw [← hrest] at hhead
        exact hhead rfl
      rw [digits, ← Nat.toDigits_append_toDigits (by decide) hpos hlt]
      exact congrArg₂ List.append hrest hchar

/-- The code units of a numeral. -/
def numeral (n : Nat) : List UInt16 := Utf16.ofString (String.ofList (digits n))

end Decimal

/-! ### Digits in texts -/

namespace Utf16

variable {u v : UInt16} {units : List UInt16}

theorem ofString_ofList (cs : List Char) : ofString (String.ofList cs) = cs.flatMap ofChar := by
  rw [ofString, String.toList_ofList]

/-- A digit is one unit, which stands for the same digit. -/
theorem ofChar_digit : ∀ c ∈ Literal.digitsOf 10, ofChar c = [UInt16.ofNat c.toNat] ∧
    (UInt16.ofNat c.toNat).toNat = c.toNat ∧ 48 ≤ UInt16.ofNat c.toNat ∧ UInt16.ofNat c.toNat ≤ 57 := by
  decide

theorem ofString_digits {cs : List Char} (hcs : Literal.AreDigits 10 cs) :
    ofString (String.ofList cs) = cs.map fun c => UInt16.ofNat c.toNat := by
  rw [ofString_ofList, List.map_eq_flatMap]
  exact List.flatMap_congr fun c hc => (ofChar_digit c (hcs c hc)).1

theorem toNat_ofNat_of_lt {n : Nat} (hn : n < 0xd800 ∨ 0xdfff < n ∧ n < 0x110000) : (Char.ofNat n).toNat = n := by
  rw [Char.ofNat, dif_pos hn]
  rfl

/-- Only a small number makes a character that is a digit. -/
theorem lt_of_digit {n : Nat} (hdigit : Char.ofNat n ∈ Literal.digitsOf 10) : n < 0x80 := by
  have hlt := Literal.lt_of_mem_digitsOf hdigit
  by_cases hn : n.isValidChar
  · rwa [toNat_ofNat_of_lt hn] at hlt
  · rw [Char.ofNat, dif_neg hn] at hdigit
    exact absurd hdigit (by decide)

theorem ofChar_of_digit (hdigit : Char.ofNat u.toNat ∈ Literal.digitsOf 10) : ofChar (Char.ofNat u.toNat) = [u] :=
  (Numeral.ofChar_ofNat (UInt16.lt_iff_toNat_lt.mpr (lt_of_digit hdigit))).2

/-- A pair of surrogates is a character far above the digits. -/
theorem paired_not_digit (u v : UInt16) : paired u v ∉ Literal.digitsOf 10 := fun hdigit => by
  have hlt := lt_of_digit hdigit
  omega

theorem single?_of_lt (hu : u < 0x80) : single? u = some (Char.ofNat u.toNat) := by
  have hlt : u.toNat < 0x80 := UInt16.lt_iff_toNat_lt.mp hu
  refine if_neg ?_
  simp only [isLeading, isTrailing, Bool.or_eq_true, Bool.and_eq_true, decide_eq_true_eq]
  omega

/-- A unit that is shown as a digit is that digit. -/
theorem single?_of_digit (hdigit : (single? u).getD (Char.ofNat 0xfffd) ∈ Literal.digitsOf 10) :
    single? u = some (Char.ofNat u.toNat) := by
  unfold single? at hdigit ⊢
  split at hdigit
  · exact absurd hdigit (by decide)
  · rw [if_neg ‹_›]

/-- Where all characters are digits, each unit is a character of its own. -/
theorem chars_of_digits (hdigits : ∀ c ∈ chars units, c.getD (Char.ofNat 0xfffd) ∈ Literal.digitsOf 10) :
    chars units = units.map fun u => some (Char.ofNat u.toNat) := by
  induction units using chars.induct with
  | case1 => rfl
  | case2 u =>
    rw [chars] at hdigits
    rw [chars, List.map_singleton, single?_of_digit (hdigits _ (List.mem_singleton_self _))]
  | case3 u v rest hpair ih =>
    rw [chars, if_pos hpair] at hdigits
    have hshown := hdigits (some (paired u v)) List.mem_cons_self
    rw [Option.getD_some] at hshown
    exact absurd hshown (paired_not_digit u v)
  | case4 u v rest hpair ih =>
    rw [chars, if_neg hpair] at hdigits ⊢
    rw [ih fun c hc => hdigits c (List.mem_cons_of_mem _ hc), single?_of_digit (hdigits _ List.mem_cons_self)]
    rfl

/-- So it is where all units are small. -/
theorem chars_of_lt (hunits : ∀ u ∈ units, u < 0x80) :
    chars units = units.map fun u => some (Char.ofNat u.toNat) := by
  induction units using chars.induct with
  | case1 => rfl
  | case2 u => rw [chars, List.map_singleton, single?_of_lt (hunits u (List.mem_singleton_self u))]
  | case3 u v rest hpair ih =>
    have hlt : u.toNat < 0x80 := UInt16.lt_iff_toNat_lt.mp (hunits u List.mem_cons_self)
    simp only [isLeading, Bool.and_eq_true, decide_eq_true_eq] at hpair
    omega
  | case4 u v rest hpair ih =>
    rw [chars, if_neg hpair, ih fun w hw => hunits w (List.mem_cons_of_mem u hw),
      single?_of_lt (hunits u List.mem_cons_self)]
    rfl

end Utf16

namespace Text

variable {t : Text} {cs : List Char}

/-- A text that is shown as digits, or has small units only, is shown unit by unit. -/
theorem toList_display (ht : Literal.AreDigits 10 t.display.toList ∨ ∀ u ∈ t.units, u < 0x80) :
    t.display.toList = t.units.map fun u => Char.ofNat u.toNat := by
  obtain ⟨kind, builtin?, storage⟩ := t
  cases storage with
  | narrow bytes =>
    show (String.ofList (bytes.map fun b => Char.ofNat b.toNat)).toList = (bytes.map fun b => b.toUInt16).map _
    rw [String.toList_ofList, List.map_map]
    rfl
  | wide units =>
    have hshown : (Text.display ⟨kind, builtin?, .wide units⟩).toList =
        (Utf16.chars units).map fun c => c.getD (Char.ofNat 0xfffd) := String.toList_ofList
    rw [hshown] at ht ⊢
    have hchars : Utf16.chars units = units.map fun u => some (Char.ofNat u.toNat) :=
      ht.elim (fun hdigits => Utf16.chars_of_digits fun c hc => hdigits _ (List.mem_map_of_mem hc)) Utf16.chars_of_lt
    rw [hchars, List.map_map]
    rfl

/-- The units of a text that is shown as digits. -/
theorem units_of_display (hdigits : Literal.AreDigits 10 t.display.toList) :
    t.units = Utf16.ofString (String.ofList t.display.toList) := by
  have hshown := toList_display (.inl hdigits)
  rw [hshown] at hdigits
  rw [Utf16.ofString_ofList, hshown, List.flatMap_map]
  have hunit : ∀ u ∈ t.units, Utf16.ofChar (Char.ofNat u.toNat) = [u] := fun u hu =>
    Utf16.ofChar_of_digit (hdigits _ (List.mem_map_of_mem hu))
  rw [List.flatMap_congr hunit, List.flatMap_singleton']

/-- Units that spell digits are shown as these digits. -/
theorem display_of_units (hcs : Literal.AreDigits 10 cs) (hunits : t.units = Utf16.ofString (String.ofList cs)) :
    t.display.toList = cs := by
  rw [Utf16.ofString_digits hcs] at hunits
  have hsmall : ∀ u ∈ t.units, u < 0x80 := fun u hu => by
    rw [hunits] at hu
    obtain ⟨c, hc, rfl⟩ := List.mem_map.mp hu
    exact UInt16.lt_of_le_of_lt (Utf16.ofChar_digit c (hcs c hc)).2.2.2 (by decide)
  rw [toList_display (.inr hsmall), hunits, List.map_map]
  refine (List.map_congr_left fun c hc => ?_).trans (List.map_id cs)
  rw [Function.comp_apply, (Utf16.ofChar_digit c (hcs c hc)).2.1, Char.ofNat_toNat]
  rfl

end Text

/-! ### Keys that are indices -/

namespace Decimal

/-- All units of a numeral are digits. -/
theorem mem_numeral {n : Nat} {u : UInt16} (hu : u ∈ numeral n) : 48 ≤ u ∧ u ≤ 57 := by
  rw [numeral, Utf16.ofString_digits (Literal.areDigits_digits n)] at hu
  obtain ⟨c, hc, rfl⟩ := List.mem_map.mp hu
  exact (Utf16.ofChar_digit c (Literal.areDigits_digits n c hc)).2.2

theorem numeral_inj {m n : Nat} (heq : numeral m = numeral n) : m = n := by
  have hshown : ∀ k, (Text.ofUnits (numeral k)).display.toList = digits k := fun k =>
    Text.display_of_units (Literal.areDigits_digits k) (Text.units_ofUnits _)
  rw [← valueOf_digits m, ← valueOf_digits n, ← hshown m, ← hshown n, heq]

end Decimal

theorem parseWord?_of_areDigits {cs : List Char} (hcs : Literal.AreDigits 10 cs) (hne : cs ≠ []) :
    parseWord? cs = if Decimal.valueOf cs < 2 ^ 32 then some (UInt32.ofNat (Decimal.valueOf cs)) else none := by
  have hunsigned : withoutPlus cs = cs := by
    unfold withoutPlus
    split
    · exact absurd (hcs '+' List.mem_cons_self) (by decide)
    · rfl
  simp only [parseWord?, hunsigned, Literal.all_isDigit.mpr hcs, List.isEmpty_eq_false_iff.mpr hne]
  rfl

theorem parseWord?_eq_some {cs : List Char} (hcs : Literal.AreDigits 10 cs) (hne : cs ≠ []) {i : UInt32} :
    parseWord? cs = some i ↔ Decimal.valueOf cs = i.toNat := by
  rw [parseWord?_of_areDigits hcs hne, Option.ite_none_right_eq_some, Option.some.injEq]
  constructor
  · rintro ⟨hlt, rfl⟩
    exact (UInt32.toNat_ofNat_of_lt' hlt).symm
  · intro hvalue
    exact ⟨hvalue ▸ i.toNat_lt, by rw [hvalue, UInt32.ofNat_toNat]⟩

/-- What a key is shown as is looked at for digits and a leading zero, in that order or the other. -/
theorem Decimal.isCanonical_iff {cs : List Char} : IsCanonical cs ↔
    (cs.isEmpty || (1 < cs.length && cs.head? == some '0')) = false ∧ cs.all Char.isDigit = true := by
  rw [Literal.all_isDigit, Bool.or_eq_false_iff, List.isEmpty_eq_false_iff, Bool.and_eq_false_iff,
    decide_eq_false_iff_not, beq_eq_false_iff_ne]
  constructor
  · rintro ⟨hdigits, hne, hleading⟩
    exact ⟨⟨hne, hleading.imp_left fun hlength => by omega⟩, hdigits⟩
  · rintro ⟨⟨hne, hleading⟩, hdigits⟩
    have hpos := List.length_pos_iff.mpr hne
    exact ⟨hdigits, hne, hleading.imp_left fun hlength => by omega⟩

/-- A key names the index that it is shown as, if this is below the greatest word. -/
theorem arrayIndex?_eq_some_iff_display {key : Text} {i : UInt32} :
    arrayIndex? key = some i ↔ Decimal.IsCanonical key.display.toList ∧
      Decimal.valueOf key.display.toList = i.toNat ∧ i.toNat < 2 ^ 32 - 1 := by
  have hgreatest : i ≠ 0xffffffff ↔ i.toNat < 2 ^ 32 - 1 := by
    have hlt := i.toNat_lt
    have hword : (0xffffffff : UInt32).toNat = 2 ^ 32 - 1 := rfl
    rw [ne_eq, ← UInt32.toNat_inj, hword]
    omega
  unfold arrayIndex?
  by_cases hcanonical : Decimal.IsCanonical key.display.toList
  · obtain ⟨hstart, hall⟩ := Decimal.isCanonical_iff.mp hcanonical
    simp only [hstart, hall, Bool.not_true, Bool.false_eq_true, if_false, Option.filter_eq_some_iff, bne_iff_ne,
      parseWord?_eq_some hcanonical.areDigits hcanonical.ne_nil, hgreatest, hcanonical, true_and]
  · simp only [hcanonical, false_and, iff_false]
    split
    · exact nofun
    · rename_i hstart
      have hall : key.display.toList.all Char.isDigit = false := Bool.eq_false_iff.mpr fun hall =>
        hcanonical (Decimal.isCanonical_iff.mpr ⟨Bool.eq_false_iff.mpr hstart, hall⟩)
      rw [hall, Bool.not_false, if_pos rfl]
      exact nofun

/-- A key names an index below `2 ^ 32 - 1` if it is the numeral of it. -/
theorem arrayIndex?_eq_some {key : Text} {i : UInt32} :
    arrayIndex? key = some i ↔ i.toNat < 2 ^ 32 - 1 ∧ key.units = Decimal.numeral i.toNat := by
  rw [arrayIndex?_eq_some_iff_display]
  constructor
  · rintro ⟨hcanonical, hvalue, hlt⟩
    refine ⟨hlt, ?_⟩
    rw [Text.units_of_display hcanonical.areDigits, Decimal.numeral, ← hvalue, Decimal.digits_valueOf hcanonical]
  · rintro ⟨hlt, hunits⟩
    rw [Text.display_of_units (Literal.areDigits_digits _) hunits]
    exact ⟨Decimal.isCanonical_digits _, Decimal.valueOf_digits _, hlt⟩

/-- So a key names an index below a length just when it is one of their numerals. -/
theorem any_arrayIndex? {key : Text} {n : Nat} (hn : n < 2 ^ 32) :
    (arrayIndex? key).any (·.toNat < n) = true ↔ ∃ i < n, key.units = Decimal.numeral i := by
  rw [Option.any_eq_true]
  constructor
  · rintro ⟨i, hindex, hlt⟩
    exact ⟨i.toNat, of_decide_eq_true hlt, (arrayIndex?_eq_some.mp hindex).2⟩
  · rintro ⟨i, hlt, hunits⟩
    have hi : (UInt32.ofNat i).toNat = i := UInt32.toNat_ofNat_of_lt' (by unfold UInt32.size; omega)
    exact ⟨UInt32.ofNat i, arrayIndex?_eq_some.mpr ⟨by omega, by rw [hi]; exact hunits⟩,
      decide_eq_true (by rw [hi]; exact hlt)⟩

/-! ### Objects with indices -/

namespace Heap

variable {h h' : Heap} {o : ObjectRef} {n : Nat}

/-- An array with so many elements, or the wrapper of a string with so many code units. -/
inductive Indexed (h : Heap) (o : ObjectRef) : Nat → Prop where
  | array {object : Object} (ho : h.object o = .ok object) (hpayload : object.payload = .array) :
      h.Indexed o object.elements.length
  | wrapper {object : Object} {s : StringRef} {t : Text} (ho : h.object o = .ok object)
      (hpayload : object.payload = .string s) (ht : h.text s = .ok t) : h.Indexed o t.units.length

theorem Indexed.hasIntrinsicProperty (hi : h.Indexed o n) (key : Text) :
    h.hasIntrinsicProperty o key = .ok (key.reads .length || (arrayIndex? key).any (·.toNat < n)) := by
  cases hi with
  | array ho hpayload =>
    simp only [Heap.hasIntrinsicProperty, ho, hpayload, bind, Except.bind]
    rfl
  | wrapper ho hpayload ht =>
    simp only [Heap.hasIntrinsicProperty, ho, hpayload, ht, bind, Except.bind, Text.length_units]
    rfl

/-- Strings that last and objects that stay keep the length. -/
theorem Indexed.of_lasts (hi : h.Indexed o n) (hl : Lasts h h') (hobjects : h'.objects = h.objects) :
    h'.Indexed o n := by
  cases hi with
  | array ho hpayload => exact .array (object_congr hobjects o ▸ ho) hpayload
  | wrapper ho hpayload ht => exact .wrapper (object_congr hobjects o ▸ ho) hpayload (hl.text_eq ht)

theorem StoresAbove.of_objects {key : List UInt16} (hobjects : h'.objects = h.objects)
    (hstores : h'.StoresAbove o key) : h.StoresAbove o key := by
  obtain ⟨q, object, hq, hobject, hkey⟩ := hstores
  exact ⟨q, object, hq.of_objects hobjects, object_congr hobjects q ▸ hobject, hkey⟩

/-- A property that no object of the chain stores is there if the class of the object gives it. -/
theorem hasProperty_of_not_stored (hends : h.EndsWithin (·.prototype?) (chainLimit - 1) o) {key : StringRef}
    {t : Text} (hkey : h.text key = .ok t) (hstored : ¬ h.StoresAbove o t.units) :
    h.hasProperty o key = h.hasIntrinsicProperty o t := by
  obtain ⟨v?, hfind, hstores⟩ := searchChain_ok (·.property? t.units) (Nat.sub_le chainLimit 1) hends
  have hfind : h.findProperty o t.units = .ok v? := hfind
  have hnone : v?.isSome = false := Bool.eq_false_iff.mpr fun hsome => hstored (hstores.mp hsome)
  simp only [hasProperty, hkey, hfind, bind, Except.bind, hnone, Bool.false_eq_true, if_false]

end Heap

/-! ### Numbers as keys -/

/-- The value is an integer, in either representation. -/
inductive Value.IsInteger : Value → Int → Prop where
  | int32 (n : Int32) : IsInteger (.int32 n) n.toInt
  | double {d : FiniteDouble} {k : Int} (hunits : d.val.units = k * Double.one) : IsInteger (.double d) k

/-- The code units of the text of a finite number, which is what it is as a key. -/
def Value.keyUnits : Value → List UInt16
  | .int32 n => Utf16.ofString (int32Text n)
  | .double d => Utf16.ofString d.val.text
  | _ => []

namespace Double

/-- From `1e21` on the sign of the exponent is written. -/
theorem plus_mem_finiteText {d : Double} {n : Nat} (hlarge : 10 ^ 21 ≤ n) (hmagnitude : d.magnitude = n * one) :
    '+' ∈ d.finiteText := by
  have hpos : 0 < n := Nat.lt_of_lt_of_le (Decimal.ten_pow_pos 21) hlarge
  have hone : one ≤ d.magnitude := hmagnitude ▸ Nat.le_mul_of_pos_left one hpos
  have hlong : d.isLongWhole = false := by
    have hpower : powerOfTen 21 ≤ d.magnitude := hmagnitude ▸ Nat.mul_le_mul_right one hlarge
    rw [isLongWhole, decide_eq_false (Nat.not_lt.mpr hpower), Bool.and_false]
  have hexponent : 16 ≤ d.generalExponent := by
    have hlength := Nat.lt_of_not_le fun hle =>
      Nat.not_lt.mpr hlarge ((Decimal.length_digits_le_iff (by decide)).mp hle)
    have hleading : Decimal.leadingExponent d.magnitude one = (Decimal.digits n).length - 1 := by
      rw [Decimal.leadingExponent, if_pos hone, hmagnitude, Nat.mul_div_cancel _ one_pos]
    rcases d.generalExponent_cases with heq | heq <;> omega
  unfold finiteText
  rw [isZero_of_whole hpos hmagnitude, hlong, isSmallFraction_of_one_le hone, if_neg Bool.false_ne_true,
    if_neg Bool.false_ne_true, if_neg Bool.false_ne_true]
  unfold generalText
  dsimp only
  rw [← generalExponent, if_pos (.inr hexponent), if_neg (by omega)]
  simp

end Double

theorem Utf16.mem_ofString {cs : List Char} {c : Char} {u : UInt16} (hc : c ∈ cs) (hu : u ∈ ofChar c) :
    u ∈ ofString (String.ofList cs) := by
  rw [ofString_ofList]
  exact List.mem_flatMap.mpr ⟨c, hc, hu⟩

section Integers
variable {v : Value} {k : Int} {n : Nat}

/-- An integer is its numeral as a key, or has a sign in it: its own or that of an exponent. -/
theorem Value.IsInteger.keyUnits_cases (hv : v.IsInteger k) :
    (0 ≤ k ∧ v.keyUnits = Decimal.numeral k.natAbs) ∨
      (k < 0 ∨ 10 ^ 21 ≤ k.natAbs) ∧ ∃ u ∈ v.keyUnits, u < 48 := by
  have hsigned : v.keyUnits = Utf16.ofString (String.ofList (Decimal.signed (k < 0) (Decimal.digits k.natAbs))) →
      (0 ≤ k ∧ v.keyUnits = Decimal.numeral k.natAbs) ∨
        (k < 0 ∨ 10 ^ 21 ≤ k.natAbs) ∧ ∃ u ∈ v.keyUnits, u < 48 := by
    intro hunits
    by_cases hneg : k < 0
    · have hminus : '-' ∈ Decimal.signed (k < 0) (Decimal.digits k.natAbs) := by simp [Decimal.signed, hneg]
      exact .inr ⟨.inl hneg, 45, hunits ▸ Utf16.mem_ofString hminus (by decide), by decide⟩
    · rw [decide_eq_false hneg] at hunits
      exact .inl ⟨Int.not_lt.mp hneg, hunits⟩
  cases hv with
  | int32 n => exact hsigned rfl
  | @double d k hunits =>
    have hmagnitude := Double.magnitude_of_units hunits
    have htext : Value.keyUnits (.double d) = Utf16.ofString (String.ofList d.val.finiteText) :=
      congrArg Utf16.ofString (Double.text_of_isFinite d.isFinite)
    by_cases hzero : k = 0
    · refine hsigned ?_
      rw [htext, Double.finiteText, Double.isZero_of_units hunits, decide_eq_true hzero, if_pos rfl, hzero]
      rfl
    · have hpos := Int.natAbs_pos.mpr hzero
      by_cases hsmall : k.natAbs < 10 ^ 21
      · refine hsigned ?_
        rw [htext, Double.finiteText_of_whole hpos hmagnitude hsmall, Double.isNegative_of_units hunits hzero]
      · have hlarge := Nat.le_of_not_lt hsmall
        have hplus := Double.plus_mem_finiteText hlarge hmagnitude
        exact .inr ⟨.inr hlarge, 43, htext ▸ Utf16.mem_ofString hplus (by decide), by decide⟩

/-- An integer names the index that it is, if it is one below the length. -/
theorem indexOf_integer (hv : v.IsInteger k) (hn : n < 2 ^ 32) {key : Text} (hkey : key.units = v.keyUnits) :
    (arrayIndex? key).any (·.toNat < n) = decide (0 ≤ k ∧ k < n) := by
  rw [Bool.eq_iff_iff, any_arrayIndex? hn, decide_eq_true_iff, hkey]
  obtain ⟨hnat, hunits⟩ | ⟨hbeyond, u, hu, hlt⟩ := hv.keyUnits_cases
  · rw [hunits]
    constructor
    · rintro ⟨i, hi, heq⟩
      have hsame := Decimal.numeral_inj heq
      omega
    · rintro ⟨-, hlt⟩
      exact ⟨k.natAbs, by omega, rfl⟩
  · constructor
    · rintro ⟨i, -, heq⟩
      rw [heq] at hu
      exact absurd hlt (UInt16.not_lt.mpr (Decimal.mem_numeral hu).1)
    · omega

/-- The name of the length has letters only, what an integer is as a key a digit or a sign. -/
theorem keyUnits_ne_length (hv : v.IsInteger k) : v.keyUnits ≠ Utf16.ofString Builtin.length.text := by
  have hletters : ∀ u ∈ Utf16.ofString Builtin.length.text, ¬ u ≤ 57 := by decide +kernel
  have hsmall : ∃ u ∈ v.keyUnits, u ≤ 57 := by
    obtain ⟨-, hunits⟩ | ⟨-, u, hu, hlt⟩ := hv.keyUnits_cases
    · obtain ⟨c, hc⟩ := List.exists_mem_of_ne_nil _ (Decimal.isCanonical_digits k.natAbs).ne_nil
      obtain ⟨hunit, -, -, hhigh⟩ := Utf16.ofChar_digit c (Literal.areDigits_digits _ c hc)
      exact ⟨_, hunits ▸ Utf16.mem_ofString hc (hunit ▸ List.mem_singleton_self _), hhigh⟩
    · exact ⟨u, hu, UInt16.le_of_lt (UInt16.lt_trans hlt (by decide))⟩
  intro heq
  obtain ⟨u, hu, hle⟩ := hsmall
  exact hletters u (heq ▸ hu) hle

end Integers

/-- The value becomes a string with the text, and what was there before is still there. -/
structure Heap.Writes (h : Heap) (v : Value) (s : StringRef) (h' : Heap) (t : Text) : Prop where
  run : (toStringRef v).runOn h = (.ok s, h')
  text : h'.text s = .ok t
  genuine : t.Genuine
  grows : Grows h h'

section Writes
variable {h h' : Heap} {v : Value} {s : StringRef}

theorem Heap.Writes.of_builtin (hs : h.Sound) {b : Builtin} (hv : toStringRef v = pure (.builtin b)) :
    h.Writes v (.builtin b) h (Text.ofBuiltin b) where
  run := by rw [hv, runOn_pure]
  text := rfl
  genuine := Text.genuine_ofBuiltin b
  grows := .refl hs

theorem Heap.Writes.of_newString (hs : h.Sound) (hn : h.HasNext) {text : String}
    (hv : toStringRef v = newString (Text.ofString text)) :
    h.Writes v (.heap h.nextSlot) (h.allocate (Text.ofString text)).2 (Text.ofString text) where
  run := by
    rw [hv, ← allocate_fst h (Text.ofString text)]
    rfl
  text := by
    refine text_heap_eq_ok.mpr ⟨⟨Text.ofString text, 0⟩, ?_, rfl⟩
    rw [slot?_allocate_of_hasNext h _ hn, if_pos rfl]
  genuine := Text.genuine_ofUnits _
  grows := .allocate hs _

/-- An integer becomes the key that its text is: an entry of the table or a new string. -/
theorem Value.IsInteger.exists_writes {k : Int} (hv : v.IsInteger k) (hs : h.Sound) (hn : h.HasNext) :
    ∃ s h' t, h.Writes v s h' t ∧ t.units = v.keyUnits := by
  cases hv with
  | int32 n =>
    by_cases hzero : n = 0
    · subst hzero
      exact ⟨_, _, _, .of_builtin hs rfl, by decide +kernel⟩
    · exact ⟨_, _, _, .of_newString hs hn (toStringRef_int32 hzero), Text.units_ofString _⟩
  | @double d k hunits =>
    cases hzero : d.val.isZero with
    | true =>
      refine ⟨_, _, _, .of_builtin hs (b := .digit0) (if_pos hzero), ?_⟩
      rw [keyUnits, Double.text_of_isFinite d.isFinite, Double.finiteText, hzero, if_pos rfl]
      decide +kernel
    | false => exact ⟨_, _, _, .of_newString hs hn (toStringRef_double hzero), Text.units_ofString _⟩

/-- A key is looked up as the string that it becomes. -/
theorem runOn_isIn_of_toStringRef (hrun : (toStringRef v).runOn h = (.ok s, h')) (o : ObjectRef) :
    ((isIn v (.object o)).runOn h).1 = h'.hasProperty o s := by
  rw [isIn, runOn_withScratch, ScratchM.runOn_bind, ScratchM.runOn_lift, hrun]
  simp only [ScratchM.runOn_bind, ScratchM.runOn_trackFresh, ScratchM.runOn_lift, runOn_ask]

end Writes

/-- An array and the wrapper of a string have the keys `length` and the numerals of the indices below the length,
and no others unless they are stored. So an integer is a key of theirs when it is from zero up to the
length, in either representation. -/
theorem hasProperty_index (h : Heap) (o : ObjectRef) (n : Nat) (hindexed : h.Indexed o n) (hn : n < 2 ^ 32)
    (hends : h.EndsWithin (·.prototype?) (chainLimit - 1) o) :
    (∀ key t, h.text key = .ok t → t.Genuine → ¬ h.StoresAbove o t.units →
      ∃ b, h.hasProperty o key = .ok b ∧ (isIn (.string key) (.object o)).runOn h = (.ok b, h) ∧
        (b = true ↔ t.units = Utf16.ofString "length" ∨ ∃ i < n, t.units = Decimal.numeral i)) ∧
    (h.Sound → h.HasNext → ∀ v (k : Int), v.IsInteger k → ¬ h.StoresAbove o v.keyUnits →
      ((isIn v (.object o)).runOn h).1 = .ok (decide (0 ≤ k ∧ k < n))) := by
  refine ⟨fun key t hkey hgenuine hstored => ?_, fun hs hnext v k hv hstored => ?_⟩
  · have hproperty := hasProperty_of_not_stored hends hkey hstored
    rw [hindexed.hasIntrinsicProperty] at hproperty
    refine ⟨_, hproperty, by rw [runOn_isIn_string, hproperty], ?_⟩
    rw [Bool.or_eq_true, hgenuine.reads_iff, any_arrayIndex? hn]
    rfl
  · obtain ⟨s, h', t, hwrites, hunits⟩ := hv.exists_writes hs hnext
    have hobjects := hwrites.grows.objects
    have hstored' : ¬ h'.StoresAbove o t.units := fun hstores =>
      hstored (hunits ▸ hstores.of_objects hobjects)
    have hends' : h'.EndsWithin (·.prototype?) (chainLimit - 1) o :=
      hends.of_objects fun q object hq => (object_congr hobjects q).trans hq
    have hlength : t.reads .length = false := Bool.eq_false_iff.mpr fun hreads =>
      keyUnits_ne_length hv (hunits ▸ (hwrites.genuine.reads_iff .length).mp hreads)
    rw [runOn_isIn_of_toStringRef hwrites.run, hasProperty_of_not_stored hends' hwrites.text hstored',
      (hindexed.of_lasts hwrites.grows.lasts hobjects).hasIntrinsicProperty, hlength, Bool.false_or,
      indexOf_integer hv hn hunits]

/-- An array of three elements. -/
def triple : Heap := { objects := #[{ payload := .array, elements := [.null, .null, .null] }] }

theorem not_storesAbove_triple (key : List UInt16) : ¬ triple.StoresAbove ⟨0⟩ key := by
  rintro ⟨q, object, -, hobject, hkey⟩
  have hmem := mem_of_object hobject
  simp only [triple, List.mem_toArray, List.mem_singleton] at hmem
  subst hmem
  cases hkey

theorem hasProperty_index_triple :
    triple.Indexed ⟨0⟩ 3 ∧ triple.EndsWithin (·.prototype?) (chainLimit - 1) ⟨0⟩ ∧
    triple.hasProperty ⟨0⟩ (.builtin .digit2) = .ok true ∧
    ((isIn (.int32 3) (.object ⟨0⟩)).runOn triple).1 = .ok false ∧
    ((isIn Value.negativeZero (.object ⟨0⟩)).runOn triple).1 = .ok true := by
  have hobject : triple.object ⟨0⟩ = .ok { payload := .array, elements := [.null, .null, .null] } := rfl
  have hindexed : triple.Indexed ⟨0⟩ 3 := .array hobject rfl
  have hends : triple.EndsWithin (·.prototype?) (chainLimit - 1) ⟨0⟩ :=
    EndsWithin.mono (m := 1) (by decide) ⟨_, rfl, fun _ hp => nomatch hp⟩
  have hsound : triple.Sound := sound_invariant.congr (sound_new {}) rfl rfl
  have hnext : triple.HasNext := (by decide : (0 : Nat) < 2 ^ 32)
  obtain ⟨hkeys, hintegers⟩ := hasProperty_index triple ⟨0⟩ 3 hindexed (by decide) hends
  obtain ⟨b, hb, -, hiff⟩ :=
    hkeys (.builtin .digit2) _ rfl (Text.genuine_ofBuiltin _) (not_storesAbove_triple _)
  have htrue : b = true := hiff.mpr (.inr ⟨2, by decide, by decide +kernel⟩)
  have hthree := hintegers hsound hnext (.int32 3) 3 (.int32 3) (not_storesAbove_triple _)
  have hzero := hintegers hsound hnext Value.negativeZero 0 (.double (by decide +kernel)) (not_storesAbove_triple _)
  exact ⟨hindexed, hends, htrue ▸ hb, hthree, hzero⟩

end ScriptCore
