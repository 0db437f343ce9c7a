import Mathlib.Data.List.TakeDrop
import ScriptCore.Double.Integers
import ScriptCore.Numeral.Grammar

/-! Recognised literals.

Recognition goes through the characters once and takes what it can; the grammar says which characters spell
which literal. The two agree (`ofChars?_eq_some`). One direction follows the steps of recognition and names the
spelling of each part; the other shows for each part that recognition ends where the next part begins, since no
digit begins an exponent or a fraction and no mark is a character of a signed literal. -/
namespace ScriptCore

-- What is said of the characters of a list is checked for these, not for all characters.
attribute [local instance (2000)] List.decidableBAll

/-! ### Digits -/

namespace Literal

theorem lt_of_mem_digitsOf {radix : Nat} {c : Char} (hc : c ∈ digitsOf radix) : c.toNat < 128 := by
  unfold digitsOf at hc
  split at hc <;> revert c <;> decide

/-- Among characters that are known by their numbers one is found by its number. -/
theorem mem_map_ofNat {ns : List Nat} (hns : ∀ n ∈ ns, n < 128) (c : Char) :
    c ∈ ns.map Char.ofNat ↔ c.toNat ∈ ns := by
  rw [List.mem_map]
  constructor
  · rintro ⟨n, hn, rfl⟩
    have hvalid : n.isValidChar := .inl (Nat.lt_trans (hns n hn) (by decide))
    rwa [Char.ofNat, dif_pos hvalid]
  · exact fun hc => ⟨c.toNat, hc, Char.ofNat_toNat c⟩

theorem isDigit_iff (c : Char) : c.isDigit = true ↔ c ∈ digitsOf 10 := by
  have hdigits : digitsOf 10 = (List.range' 48 10).map Char.ofNat := by decide
  rw [hdigits, mem_map_ofNat (by decide), List.mem_range'_1, Char.isDigit, Bool.and_eq_true, decide_eq_true_iff,
    decide_eq_true_iff]
  exact and_congr_right fun _ => (Nat.lt_succ_iff (n := 57)).symm

theorem isSome_digitValue? {radix : Nat} (hr : radix ∈ [2, 8, 16]) (c : Char) :
    (Decimal.digitValue? radix c).isSome = true ↔ c ∈ digitsOf radix := by
  have hle : ∀ a b : Char, a ≤ b ↔ a.toNat ≤ b.toNat := fun _ _ => Iff.rfl
  have hbinary : digitsOf 2 = (List.range' 48 2).map Char.ofNat := by decide
  have hoctal : digitsOf 8 = (List.range' 48 8).map Char.ofNat := by decide
  have hhexadecimal : digitsOf 16 = (List.range' 48 10 ++ List.range' 97 6 ++ List.range' 65 6).map Char.ofNat := by
    decide
  simp only [Decimal.digitValue?, hle, Char.reduceToNat]
  simp only [List.mem_cons, List.not_mem_nil, or_false] at hr
  rcases hr with rfl | rfl | rfl
  · rw [hbinary, mem_map_ofNat (by decide), List.mem_range'_1]
    split_ifs <;> simp <;> omega
  · rw [hoctal, mem_map_ofNat (by decide), List.mem_range'_1]
    split_ifs <;> simp <;> omega
  · rw [hhexadecimal, mem_map_ofNat (by decide), List.mem_append, List.mem_append, List.mem_range'_1,
      List.mem_range'_1, List.mem_range'_1]
    split_ifs <;> simp <;> omega

theorem all_isDigit {ds : List Char} : ds.all Char.isDigit = true ↔ AreDigits 10 ds := by
  simp only [List.all_eq_true, isDigit_iff, AreDigits]

theorem radixDigits?_eq_some {radix : Nat} (hr : radix ∈ [2, 8, 16]) {cs : List Char} {literal : Literal} :
    radixDigits? radix cs = some literal ↔ literal = digits radix cs ∧ cs ≠ [] ∧ AreDigits radix cs := by
  simp only [radixDigits?, Option.ite_none_right_eq_some, Bool.and_eq_true, List.all_eq_true,
    isSome_digitValue? hr, AreDigits, Bool.not_eq_true', List.isEmpty_eq_false_iff, Option.some.injEq]
  tauto

/-- Digits end where something else begins. -/
theorem span_isDigit_append {ds rest : List Char} (hds : AreDigits 10 ds)
    (hrest : ∀ c, rest.head? = some c → c.isDigit = false) : (ds ++ rest).span Char.isDigit = (ds, rest) := by
  have hall : ∀ c ∈ ds, c.isDigit = true := fun c hc => (isDigit_iff c).mpr (hds c hc)
  rw [List.span_eq_takeWhile_dropWhile, List.takeWhile_append_of_pos hall, List.dropWhile_append_of_pos hall]
  cases rest with
  | nil => simp
  | cons c rest => simp [hrest c rfl]

theorem exists_span_isDigit (cs : List Char) :
    AreDigits 10 (cs.span Char.isDigit).1 ∧ cs = (cs.span Char.isDigit).1 ++ (cs.span Char.isDigit).2 := by
  rw [List.span_eq_takeWhile_dropWhile]
  exact ⟨all_isDigit.mp List.all_takeWhile, List.takeWhile_append_dropWhile.symm⟩

/-! ### Signs, fractions and exponents -/

theorem exists_signOf (cs : List Char) : ∃ sign, SpellsSign (signOf cs).1 sign ∧ cs = sign ++ (signOf cs).2 := by
  unfold signOf
  split
  · exact ⟨['+'], .plus, rfl⟩
  · exact ⟨['-'], .minus, rfl⟩
  · exact ⟨[], .absent, rfl⟩

theorem signOf_append {negative : Bool} {sign : List Char} (hs : SpellsSign negative sign) (body : List Char)
    (hbody : ∀ c, body.head? = some c → c ≠ '+' ∧ c ≠ '-') : signOf (sign ++ body) = (negative, body) := by
  cases hs with
  | plus => rfl
  | minus => rfl
  | absent =>
    rw [List.nil_append]
    unfold signOf
    split
    · exact absurd rfl (hbody '+' rfl).1
    · exact absurd rfl (hbody '-' rfl).2
    · rfl

theorem ne_sign_of_isDigit {c : Char} (hc : c.isDigit = true) : c ≠ '+' ∧ c ≠ '-' := by
  constructor <;> rintro rfl <;> cases hc

theorem exists_fractionOf (cs : List Char) :
    ∃ point, SpellsFraction (fractionOf cs).1 point ∧ cs = point ++ (fractionOf cs).2 := by
  unfold fractionOf
  split
  · rename_i rest
    obtain ⟨hdigits, hsplit⟩ := exists_span_isDigit rest
    exact ⟨_, .point hdigits, by rw [List.cons_append, ← hsplit]⟩
  · exact ⟨[], .absent, rfl⟩

theorem fractionOf_append {fraction point rest : List Char} (hf : SpellsFraction fraction point)
    (hrest : ∀ c, rest.head? = some c → c.isDigit = false ∧ c ≠ '.') :
    fractionOf (point ++ rest) = (fraction, rest) := by
  cases hf with
  | absent =>
    rw [List.nil_append]
    unfold fractionOf
    split
    · exact absurd rfl (hrest '.' rfl).2
    · rfl
  | point hds => exact span_isDigit_append hds fun c hc => (hrest c hc).1

theorem exponent?_eq_some {cs : List Char} {e : Int} : exponent? cs = some e ↔ SpellsExponent e cs := by
  constructor
  · intro he
    cases cs with
    | nil =>
      obtain rfl := Option.some.inj he
      exact .absent
    | cons mark rest =>
      obtain ⟨sign, hsign, hrest⟩ := exists_signOf rest
      simp only [exponent?, Option.ite_none_right_eq_some, Bool.and_eq_true, Bool.not_eq_true',
        List.isEmpty_eq_false_iff, all_isDigit, Option.some.injEq] at he
      obtain ⟨hmark, ⟨hne, hds⟩, rfl⟩ := he
      have hspelled := SpellsExponent.present (by simpa using hmark) hsign hne hds
      rwa [← hrest] at hspelled
  · intro he
    cases he with
    | absent => rfl
    | @present mark negative sign ds hmark hsign hne hds =>
      have hbody : ∀ c, ds.head? = some c → c ≠ '+' ∧ c ≠ '-' := fun c hc =>
        ne_sign_of_isDigit ((isDigit_iff c).mpr (hds c (List.mem_of_mem_head? hc)))
      have hmark' : mark = 'e' ∨ mark = 'E' := by simpa using hmark
      simp [exponent?, hmark', signOf_append hsign ds hbody, hne, all_isDigit.mpr hds]

/-! ### Signed literals -/

theorem SpellsExponent.mem_of_head {e : Int} {cs : List Char} (he : SpellsExponent e cs) {c : Char}
    (hc : cs.head? = some c) : c ∈ ['e', 'E'] := by
  cases he with
  | absent => cases hc
  | present hmark _ _ _ => exact Option.some.inj hc ▸ hmark

/-- Behind its sign a decimal begins with a digit or a point. -/
theorem head_decimal {whole fraction point exponent : List Char} (hwhole : AreDigits 10 whole)
    (hpoint : SpellsFraction fraction point) (hne : whole ++ fraction ≠ []) {c : Char}
    (hc : (whole ++ (point ++ exponent)).head? = some c) : c.isDigit = true ∨ c = '.' := by
  cases whole with
  | cons d ds =>
    obtain rfl := Option.some.inj hc
    exact .inl ((isDigit_iff d).mpr (hwhole d List.mem_cons_self))
  | nil =>
    cases hpoint with
    | absent => exact absurd rfl hne
    | point _ => exact .inr (Option.some.inj hc).symm

/-- What was recognised is spelled by the parts that recognition took. -/
theorem spellsSigned_of_signed? {cs : List Char} {literal : Literal} (hread : signed? cs = some literal) :
    SpellsSigned literal cs := by
  obtain ⟨sign, hsign, hcs⟩ := exists_signOf cs
  obtain ⟨hwhole, hbody⟩ := exists_span_isDigit (signOf cs).2
  obtain ⟨point, hpoint, hrest⟩ := exists_fractionOf ((signOf cs).2.span Char.isDigit).2
  simp only [signed?] at hread
  split at hread
  · rename_i hinfinity
    obtain rfl := Option.some.inj hread
    have hspelled := SpellsSigned.infinity hsign
    rwa [← hinfinity, ← hcs] at hspelled
  · obtain ⟨hdigits, hread⟩ := Option.ite_none_left_eq_some.mp hread
    obtain ⟨e, he, rfl⟩ := Option.map_eq_some_iff.mp hread
    have hne : ((signOf cs).2.span Char.isDigit).1 ++
        (fractionOf ((signOf cs).2.span Char.isDigit).2).1 ≠ [] := by simpa using hdigits
    have hspelled := SpellsSigned.decimal hsign hwhole hpoint hne (exponent?_eq_some.mp he)
    rwa [← hrest, ← hbody, ← hcs] at hspelled

theorem signed?_infinity {negative : Bool} {sign : List Char} (hsign : SpellsSign negative sign) :
    signed? (sign ++ ['I', 'n', 'f', 'i', 'n', 'i', 't', 'y']) = some (infinity negative) := by
  have hsigned := signOf_append hsign ['I', 'n', 'f', 'i', 'n', 'i', 't', 'y'] fun c hc =>
    Option.some.inj hc ▸ (by decide)
  simp only [signed?, hsigned, if_true]

section Decimal
variable {negative : Bool} {sign whole fraction point exponent : List Char} {e : Int}

/-- The digits before a point end there, or where the exponent begins. -/
theorem span_decimal (hwhole : AreDigits 10 whole) (hpoint : SpellsFraction fraction point)
    (he : SpellsExponent e exponent) :
    (whole ++ (point ++ exponent)).span Char.isDigit = (whole, point ++ exponent) := by
  refine span_isDigit_append hwhole fun c hc => ?_
  cases hpoint with
  | absent =>
    have hmark : ∀ m ∈ ['e', 'E'], m.isDigit = false := by decide
    exact hmark c (he.mem_of_head hc)
  | point _ => exact Option.some.inj hc ▸ rfl

theorem signed?_decimal (hsign : SpellsSign negative sign) (hwhole : AreDigits 10 whole)
    (hpoint : SpellsFraction fraction point) (hne : whole ++ fraction ≠ []) (he : SpellsExponent e exponent) :
    signed? (sign ++ (whole ++ (point ++ exponent))) = some (decimal negative whole fraction e) := by
  have hhead : ∀ c, (whole ++ (point ++ exponent)).head? = some c → c.isDigit = true ∨ c = '.' :=
    fun c hc => head_decimal hwhole hpoint hne hc
  have hsigned := signOf_append hsign (whole ++ (point ++ exponent)) fun c hc => by
    rcases hhead c hc with hdigit | rfl
    · exact ne_sign_of_isDigit hdigit
    · decide
  have hfinite : whole ++ (point ++ exponent) ≠ ['I', 'n', 'f', 'i', 'n', 'i', 't', 'y'] := fun heq => by
    have hfirst := hhead 'I' (by rw [heq]; rfl)
    revert hfirst
    decide
  have hfraction := fractionOf_append hpoint fun c hc => by
    have hmark : ∀ m ∈ ['e', 'E'], m.isDigit = false ∧ m ≠ '.' := by decide
    exact hmark c (he.mem_of_head hc)
  have hempty : (whole.isEmpty && fraction.isEmpty) = false := by simpa using hne
  simp only [signed?, hsigned, if_neg hfinite, span_decimal hwhole hpoint he, hfraction, hempty,
    Bool.false_eq_true, if_false, exponent?_eq_some.mpr he, Option.map_some]

end Decimal

theorem signed?_eq_some {cs : List Char} {literal : Literal} :
    signed? cs = some literal ↔ SpellsSigned literal cs := by
  refine ⟨spellsSigned_of_signed?, fun hspelled => ?_⟩
  cases hspelled with
  | infinity hsign => exact signed?_infinity hsign
  | decimal hsign hwhole hpoint hne he => exact signed?_decimal hsign hwhole hpoint hne he

/-! ### Literals -/

theorem afterMark?_eq_some {mark : Char} {cs rest : List Char} :
    afterMark? mark cs = some rest ↔ ∃ c, (c = mark ∨ c = mark.toUpper) ∧ cs = '0' :: c :: rest := by
  constructor
  · intro hafter
    unfold afterMark? at hafter
    split at hafter
    · rename_i c rest'
      obtain ⟨hc, hrest⟩ := Option.ite_none_right_eq_some.mp hafter
      exact ⟨c, hc, by rw [Option.some.inj hrest]⟩
    · cases hafter
  · rintro ⟨c, hc, rfl⟩
    simp [afterMark?, hc]

/-- The characters of signed literals. -/
def signedChars : List Char := digitsOf 10 ++ ['+', '-', '.', 'e', 'E', 'I', 'n', 'f', 'i', 't', 'y']

section Characters
variable {c : Char}

theorem AreDigits.mem_signedChars {ds : List Char} (hds : AreDigits 10 ds) (hc : c ∈ ds) : c ∈ signedChars :=
  List.mem_append_left _ (hds c hc)

theorem SpellsSign.mem_signedChars {negative : Bool} {sign : List Char} (hs : SpellsSign negative sign)
    (hc : c ∈ sign) : c ∈ signedChars := by
  cases hs with
  | absent => cases hc
  | plus | minus => exact List.mem_singleton.mp hc ▸ (by decide)

theorem SpellsFraction.mem_signedChars {fraction point : List Char} (hf : SpellsFraction fraction point)
    (hc : c ∈ point) : c ∈ signedChars := by
  cases hf with
  | absent => cases hc
  | point hds =>
    rcases List.mem_cons.mp hc with rfl | hc
    · decide
    · exact hds.mem_signedChars hc

theorem SpellsExponent.mem_signedChars {e : Int} {exponent : List Char} (he : SpellsExponent e exponent)
    (hc : c ∈ exponent) : c ∈ signedChars := by
  have hmarks : ∀ m ∈ ['e', 'E'], m ∈ signedChars := by decide
  cases he with
  | absent => cases hc
  | present hmark hsign _ hds =>
    rcases List.mem_cons.mp hc with rfl | hc
    · exact hmarks c hmark
    · exact (List.mem_append.mp hc).elim hsign.mem_signedChars hds.mem_signedChars

theorem SpellsSigned.mem_signedChars {literal : Literal} {cs : List Char} (hs : SpellsSigned literal cs)
    (hc : c ∈ cs) : c ∈ signedChars := by
  have hletters : ∀ m ∈ ['I', 'n', 'f', 'i', 'n', 'i', 't', 'y'], m ∈ signedChars := by decide
  cases hs with
  | infinity hsign => exact (List.mem_append.mp hc).elim hsign.mem_signedChars (hletters c)
  | decimal hsign hwhole hpoint _ hexponent =>
    simp only [List.mem_append] at hc
    rcases hc with hc | hc | hc | hc
    · exact hsign.mem_signedChars hc
    · exact hwhole.mem_signedChars hc
    · exact hpoint.mem_signedChars hc
    · exact hexponent.mem_signedChars hc

end Characters

/-- No mark is taken for part of a signed literal. -/
theorem SpellsSigned.afterMark?_eq_none {literal : Literal} {cs : List Char} (hs : SpellsSigned literal cs)
    {mark : Char} (hmark : mark ∈ ['x', 'o', 'b']) : afterMark? mark cs = none := by
  refine Option.eq_none_iff_forall_ne_some.mpr fun rest hafter => ?_
  obtain ⟨c, hc, rfl⟩ := afterMark?_eq_some.mp hafter
  have hmem : c ∈ signedChars := hs.mem_signedChars (by simp)
  have hout : ∀ m ∈ ['x', 'o', 'b'], m ∉ signedChars ∧ m.toUpper ∉ signedChars := by decide
  rcases hc with rfl | rfl
  · exact (hout _ hmark).1 hmem
  · exact (hout _ hmark).2 hmem

theorem SpellsSigned.ne_nil {literal : Literal} {cs : List Char} (hs : SpellsSigned literal cs) : cs ≠ [] := by
  cases hs with
  | infinity _ => simp
  | @decimal negative sign whole fraction point exponent e hsign hwhole hpoint hne he =>
    cases hpoint with
    | absent => simp_all
    | point _ => simp

theorem spells_of_afterMark? (mark : Char) {radix : Nat} {cs rest : List Char} {literal : Literal}
    (hr : radix ∈ [2, 8, 16]) (hlower : (mark, radix) ∈ marks) (hupper : (mark.toUpper, radix) ∈ marks)
    (hafter : afterMark? mark cs = some rest) (hread : radixDigits? radix rest = some literal) :
    Spells literal cs := by
  obtain ⟨c, hc, rfl⟩ := afterMark?_eq_some.mp hafter
  obtain ⟨rfl, hne, hds⟩ := (radixDigits?_eq_some hr).mp hread
  refine .marked ?_ hne hds
  rcases hc with rfl | rfl
  · exact hlower
  · exact hupper

/-- Reading recognises the literals that characters spell, and nothing else. -/
theorem ofChars?_eq_some {cs : List Char} {literal : Literal} :
    ofChars? cs = some literal ↔ Spells literal cs := by
  constructor
  · intro hread
    unfold ofChars? at hread
    split at hread
    · rename_i hempty
      obtain rfl := List.isEmpty_iff.mp hempty
      exact Option.some.inj hread ▸ .blank
    · split at hread
      · exact spells_of_afterMark? 'x' (by decide) (by decide) (by decide) ‹_› hread
      · split at hread
        · exact spells_of_afterMark? 'o' (by decide) (by decide) (by decide) ‹_› hread
        · split at hread
          · exact spells_of_afterMark? 'b' (by decide) (by decide) (by decide) ‹_› hread
          · exact .signed (signed?_eq_some.mp hread)
  · intro hspelled
    cases hspelled with
    | blank => rfl
    | @marked mark radix ds hmark hne hds =>
      have hread : radix ∈ [2, 8, 16] → radixDigits? radix ds = some (digits radix ds) :=
        fun hr => (radixDigits?_eq_some hr).mpr ⟨rfl, hne, hds⟩
      simp only [marks, List.mem_cons, Prod.mk.injEq, List.not_mem_nil, or_false] at hmark
      rcases hmark with ⟨rfl, rfl⟩ | ⟨rfl, rfl⟩ | ⟨rfl, rfl⟩ | ⟨rfl, rfl⟩ | ⟨rfl, rfl⟩ | ⟨rfl, rfl⟩
      all_goals exact hread (by decide)
    | signed hsigned =>
      have hnone : ∀ mark ∈ ['x', 'o', 'b'], afterMark? mark cs = none :=
        fun mark hmark => hsigned.afterMark?_eq_none hmark
      simp only [ofChars?, List.isEmpty_eq_false_iff.mpr hsigned.ne_nil, Bool.false_eq_true, if_false,
        hnone 'x' (by decide), hnone 'o' (by decide), hnone 'b' (by decide), signed?_eq_some.mpr hsigned]

end Literal
end ScriptCore
