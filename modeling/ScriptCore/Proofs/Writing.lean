import ScriptCore.Decimal.Lemmas
import ScriptCore.Numeral.Written
import ScriptCore.Proofs.Readings

/-! Written numbers read back.

Whatever the layout, the text of a double spells its digits down to some step, `lastStep`, and is read as what
these digits stand for, `reread` (`toDouble?_text`). A whole number below `1e21` is written with all its digits
and nothing else (`finiteText_of_whole`). -/
namespace ScriptCore

/-! ### Zeros at the end -/

namespace Decimal

theorem dropTrailingZeros_concat (ds : List Char) (c : Char) :
    dropTrailingZeros (ds ++ [c]) = if c == '0' then dropTrailingZeros ds else ds ++ [c] :=
  List.rdropWhile_concat _ _ _

/-- No zero in front of the point is dropped. -/
theorem dropTrailingZeros_append_point (front fraction : List Char) :
    dropTrailingZeros (front ++ '.' :: fraction) = front ++ '.' :: dropTrailingZeros fraction := by
  induction fraction using List.reverseRecOn with
  | nil => exact dropTrailingZeros_concat front '.'
  | append_singleton fraction c ih =>
    have hassoc : front ++ '.' :: (fraction ++ [c]) = front ++ '.' :: fraction ++ [c] :=
      (List.append_assoc front ('.' :: fraction) [c]).symm
    rw [hassoc, dropTrailingZeros_concat, dropTrailingZeros_concat, ih]
    split
    · rfl
    · exact hassoc.symm

/-- Zeros are cut off a text as they are off its fraction, and the point goes with the last of the digits behind
it. -/
theorem stripFraction_pointed {front fraction : List Char} (hfront : '.' ∉ front) (hfraction : '.' ∉ fraction) :
    stripFraction (pointed front fraction) = pointed front (dropTrailingZeros fraction) := by
  cases fraction with
  | nil => exact if_neg hfront
  | cons d ds =>
    obtain ⟨k, hzeros⟩ := exists_zeros (d :: ds)
    have hkept : '.' ∉ dropTrailingZeros (d :: ds) := fun hmem => hfraction (hzeros ▸ List.mem_append_left _ hmem)
    show stripFraction (front ++ '.' :: d :: ds) = _
    rw [stripFraction, if_pos (List.mem_append_right _ List.mem_cons_self), dropTrailingZeros_append_point]
    generalize dropTrailingZeros (d :: ds) = kept at hkept
    cases kept with
    | nil =>
      -- The point is the last character, and there is no other in front of it.
      refine (List.rdropWhile_concat_pos _ _ _ rfl).trans (List.rdropWhile_eq_self_iff.mpr fun hne hpoint => ?_)
      exact hfront (eq_of_beq hpoint ▸ List.getLast_mem hne)
    | cons e es =>
      refine List.rdropWhile_eq_self_iff.mpr fun hne hpoint => hkept ?_
      rw [List.getLast_append_of_ne_nil _ (List.cons_ne_nil _ _), List.getLast_cons (List.cons_ne_nil _ _)] at hpoint
      exact eq_of_beq hpoint ▸ List.getLast_mem _

end Decimal

/-! ### Layouts as literals -/

namespace Literal

theorem areDigits_digits (n : Nat) : AreDigits 10 (Decimal.digits n) := fun c hc =>
  (isDigit_iff c).mp (Nat.isDigit_of_mem_toDigits (by decide) (by decide) hc)

theorem areDigits_append {ds es : List Char} : AreDigits 10 (ds ++ es) ↔ AreDigits 10 ds ∧ AreDigits 10 es :=
  List.forall_mem_append

theorem areDigits_replicate (k : Nat) : AreDigits 10 (List.replicate k '0') := fun c hc => by
  rw [List.eq_of_mem_replicate hc]
  decide

theorem areDigits_split (places n : Nat) :
    AreDigits 10 (Decimal.split places n).1 ∧ AreDigits 10 (Decimal.split places n).2 := by
  refine ⟨areDigits_digits _, ?_⟩
  unfold Decimal.split
  split
  · exact List.forall_mem_nil _
  · exact areDigits_append.mpr ⟨areDigits_replicate _, areDigits_digits _⟩

theorem areDigits_dropTrailingZeros {ds : List Char} (h : AreDigits 10 ds) :
    AreDigits 10 (Decimal.dropTrailingZeros ds) := by
  obtain ⟨k, hk⟩ := Decimal.exists_zeros ds
  rw [hk] at h
  exact (areDigits_append.mp h).1

theorem not_mem_of_areDigits {ds : List Char} (hds : AreDigits 10 ds) : '.' ∉ ds := fun hmem =>
  absurd (hds '.' hmem) (by decide)

theorem exists_sign (negative : Bool) (body : List Char) :
    ∃ sign, SpellsSign negative sign ∧ Decimal.signed negative body = sign ++ body := by
  cases negative with
  | false => exact ⟨[], .absent, rfl⟩
  | true => exact ⟨['-'], .minus, rfl⟩

theorem exists_point (whole : List Char) {fraction : List Char} (h : AreDigits 10 fraction) :
    ∃ point, SpellsFraction fraction point ∧ Decimal.pointed whole fraction = whole ++ point := by
  cases fraction with
  | nil => exact ⟨[], .absent, (List.append_nil _).symm⟩
  | cons d ds => exact ⟨_, .point h, rfl⟩

end Literal

namespace Double

theorem laidOut_eq (d : Double) (whole fraction : List Char) :
    d.laidOut (whole, fraction) = Decimal.pointed (Decimal.signed d.isNegative whole) fraction := by
  unfold laidOut Decimal.pointed Decimal.signed
  split <;> split <;> rfl

/-- It makes no difference that zeros are cut off after sign and digits were put together. -/
theorem written_eq (d : Double) {whole fraction : List Char} (hwhole : Literal.AreDigits 10 whole)
    (hfraction : Literal.AreDigits 10 fraction) :
    d.written (whole, fraction) =
      Decimal.signed d.isNegative (Decimal.pointed whole (Decimal.dropTrailingZeros fraction)) := by
  have hfront : '.' ∉ Decimal.signed d.isNegative whole := by
    have hpoint := Literal.not_mem_of_areDigits hwhole
    cases d.isNegative with
    | false => exact hpoint
    | true => exact List.not_mem_cons_of_ne_of_not_mem (by decide) hpoint
  rw [written, laidOut_eq, Decimal.stripFraction_pointed hfront (Literal.not_mem_of_areDigits hfraction), ← laidOut_eq]
  rfl

theorem written_split (d : Double) (places n : Nat) :
    d.written (Decimal.split places n) = Decimal.signed d.isNegative
      (Decimal.pointed (Decimal.split places n).1 (Decimal.dropTrailingZeros (Decimal.split places n).2)) :=
  d.written_eq (Literal.areDigits_split places n).1 (Literal.areDigits_split places n).2

/-- Nothing is cut off a layout without places. -/
theorem laidOut_fixedRuns_zero (d : Double) : d.laidOut (d.fixedRuns 0) = d.written (d.fixedRuns 0) :=
  (d.written_split 0 _).symm

end Double

namespace Literal

/-- A layout, with what follows it as its exponent, spells a decimal. -/
theorem spells_written (d : Double) {whole fraction suffix : List Char} {e : Int} (hwhole : AreDigits 10 whole)
    (hne : whole ≠ []) (hfraction : AreDigits 10 fraction) (he : SpellsExponent e suffix) :
    SpellsSigned (decimal d.isNegative whole (Decimal.dropTrailingZeros fraction) e)
      (d.written (whole, fraction) ++ suffix) := by
  obtain ⟨point, hpoint, hpointed⟩ := exists_point whole (areDigits_dropTrailingZeros hfraction)
  obtain ⟨sign, hsign, hsigned⟩ := exists_sign d.isNegative (whole ++ point)
  have hspelled := SpellsSigned.decimal hsign hwhole hpoint (List.append_ne_nil_of_left_ne_nil hne _) he
  rw [d.written_eq hwhole hfraction, hpointed, hsigned, List.append_assoc, List.append_assoc]
  exact hspelled

/-- Zeros that are not written do not change the value. -/
theorem value_dropTrailingZeros (negative : Bool) (whole fraction : List Char) (e : Int) :
    (decimal negative whole (Decimal.dropTrailingZeros fraction) e).value =
      Double.ofDecimal negative (Decimal.valueOf (whole ++ fraction)) (e - fraction.length) := by
  obtain ⟨k, hk⟩ := Decimal.exists_zeros fraction
  have hvalue : Decimal.valueOf (whole ++ fraction) =
      Decimal.valueOf (whole ++ Decimal.dropTrailingZeros fraction) * 10 ^ k := by
    rw [hk, ← List.append_assoc, Decimal.valueOf_append, Decimal.valueOf_replicate, List.length_replicate,
      Nat.add_zero, Nat.mul_comm, ← hk]
  have hlength : (fraction.length : Int) = (Decimal.dropTrailingZeros fraction).length + k := by
    rw [← Int.natCast_add, ← List.length_replicate (n := k) (a := '0'), ← List.length_append, ← hk]
  rw [hvalue, hlength, ← Int.sub_sub, Double.ofDecimal_scale, value]

end Literal

namespace Double

/-- A layout is read as its digits, with the point where it was put. -/
theorem toDouble?_written (d : Double) (places n : Nat) {suffix : List Char} {e : Int}
    (he : Literal.SpellsExponent e suffix) :
    (Text.ofString (String.ofList (d.written (Decimal.split places n) ++ suffix))).toDouble? =
      some (ofDecimal d.isNegative n (e - places)) := by
  obtain ⟨hwhole, hfraction⟩ := Literal.areDigits_split places n
  have hspelled := Literal.spells_written d hwhole (List.ne_nil_of_length_pos (Decimal.length_digits_pos _))
    hfraction he
  rw [Text.toDouble?_of_spellsSigned hspelled, Literal.value_dropTrailingZeros, Decimal.valueOf_split,
    Decimal.length_split]

theorem toDouble?_written_plain (d : Double) (places n : Nat) :
    (Text.ofString (String.ofList (d.written (Decimal.split places n)))).toDouble? =
      some (ofDecimal d.isNegative n (-places)) := by
  have hread := toDouble?_written d places n .absent
  rwa [List.append_nil, Int.zero_sub] at hread

/-! ### Sixteen digits -/

/-- The exponent of a number rounded to sixteen digits. -/
def generalExponent (d : Double) : Int := (Decimal.atDigits 16 d.magnitude one).exponent

theorem generalExponent_cases (d : Double) :
    d.generalExponent = Decimal.leadingExponent d.magnitude one ∨
      d.generalExponent = Decimal.leadingExponent d.magnitude one + 1 := by
  unfold generalExponent
  generalize one = unit
  rcases Decimal.atDigits_cases 16 d.magnitude unit with heq | ⟨-, heq⟩
  · exact .inl (by rw [heq])
  · exact .inr (by rw [heq])

/-- A carry does not change the number. -/
theorem ofDecimal_atDigits (negative : Bool) (num den : Nat) :
    ofDecimal negative (Decimal.atDigits 16 num den).significand ((Decimal.atDigits 16 num den).exponent - 15) =
      ofDecimal negative (Decimal.atStep (Decimal.leadingExponent num den - 15) num den)
        (Decimal.leadingExponent num den - 15) := by
  rcases Decimal.atDigits_cases 16 num den with heq | ⟨hcarry, heq⟩
  · rw [heq]
    rfl
  · have hcarry : Decimal.atStep (Decimal.leadingExponent num den - 15) num den = 10 ^ 15 * 10 ^ 1 := hcarry
    have hstep : Decimal.leadingExponent num den - 15 = Decimal.leadingExponent num den + 1 - 15 - (1 : Nat) := by
      omega
    rw [heq, hcarry, hstep, ofDecimal_scale]

theorem spellsExponent_general {e : Int} (he : e.natAbs < 1000) :
    Literal.SpellsExponent e ('e' :: (if e < 0 then '-' else '+') :: Decimal.digits e.natAbs) := by
  have hread : Literal.exponentOf (Decimal.digits e.natAbs) = e.natAbs := by
    rw [Literal.exponentOf_eq, Decimal.valueOf_digits]
    rw [Decimal.valueOf_digits]
    unfold Literal.exponentLimit
    omega
  have hdigits := Literal.areDigits_digits e.natAbs
  have hne := List.ne_nil_of_length_pos (Decimal.length_digits_pos e.natAbs)
  by_cases hneg : e < 0
  · have hspelled := @Literal.SpellsExponent.present 'e' true ['-'] _ (by decide) .minus hne hdigits
    rw [hread, if_pos rfl, show (-(e.natAbs : Int)) = e by omega] at hspelled
    rw [if_pos hneg]
    exact hspelled
  · have hspelled := @Literal.SpellsExponent.present 'e' false ['+'] _ (by decide) .plus hne hdigits
    rw [hread, if_neg Bool.false_ne_true, show (e.natAbs : Int) = e by omega] at hspelled
    rw [if_neg hneg]
    exact hspelled

/-- Finite magnitudes are written with an exponent of three digits at most. -/
theorem natAbs_generalExponent_lt {d : Double} (hd : d.isFinite = true) : d.generalExponent.natAbs < 1000 := by
  have hlarge : unitsOf infinityPattern < 10 ^ 700 ∧ one < 10 ^ 700 := by decide +kernel
  have hmagnitude : d.magnitude < unitsOf infinityPattern := unitsOf_lt (of_decide_eq_true hd)
  have hbound := Decimal.natAbs_leadingExponent_le (by decide) (Nat.lt_trans hmagnitude hlarge.1) hlarge.2
  rcases d.generalExponent_cases with heq | heq <;> omega

/-! ### Finite numbers -/

/-- The exponent of the last digit that a layout has, before zeros are dropped. -/
def lastStep (d : Double) : Int :=
  if d.isLongWhole then 0
  else if d.isSmallFraction then -10
  else if d.generalExponent < -4 ∨ 16 ≤ d.generalExponent then Decimal.leadingExponent d.magnitude one - 15
  else d.generalExponent - 15

theorem text_of_isFinite {d : Double} (hd : d.isFinite = true) : d.text = String.ofList d.finiteText := by
  simp only [text, isNaN_of_isFinite hd, isInfinite_of_isFinite hd, Bool.false_eq_true, if_false]

/-- The number that the digits down to the last step stand for, as a double. -/
def reread (d : Double) : Double :=
  ofDecimal d.isNegative (Decimal.atStep d.lastStep d.magnitude one) d.lastStep

/-- What is read is what the digits stand for. -/
theorem toDouble?_text {d : Double} (hd : d.isFinite = true) (hzero : d.isZero = false) :
    (Text.ofString d.text).toDouble? = some d.reread := by
  have hplaces : ∀ places : Nat, (Text.ofString (String.ofList (d.written (d.fixedRuns places)))).toDouble? =
      some (ofDecimal d.isNegative (Decimal.atStep (-places) d.magnitude one) (-places)) := fun places => by
    rw [fixedRuns, toDouble?_written_plain, Decimal.atPlaces_eq]
  rw [text_of_isFinite hd]
  unfold finiteText reread lastStep
  rw [hzero, if_neg Bool.false_ne_true]
  split
  · exact laidOut_fixedRuns_zero d ▸ hplaces 0
  · split
    · exact hplaces 10
    · unfold generalText
      dsimp only
      rw [← generalExponent]
      split
      · rw [toDouble?_written d 15 _ (spellsExponent_general (natAbs_generalExponent_lt hd)), generalExponent]
        exact congrArg some (ofDecimal_atDigits _ _ _)
      · have hstep : (-((15 - d.generalExponent).toNat : Int)) = d.generalExponent - 15 := by omega
        rw [hplaces, hstep]

/-! ### Whole numbers -/

theorem isSmallFraction_of_one_le {d : Double} (hone : one ≤ d.magnitude) : d.isSmallFraction = false := by
  have hhigh : smallFractionHigh.magnitude < one := by decide +kernel
  rw [isSmallFraction, decide_eq_false (Nat.not_le.mpr (Nat.lt_of_lt_of_le hhigh hone)), Bool.and_false]

/-- The places of a whole number are not written. -/
theorem written_split_mul (d : Double) (places n : Nat) :
    d.written (Decimal.split places (n * 10 ^ places)) = Decimal.signed d.isNegative (Decimal.digits n) := by
  obtain ⟨hwhole, hfraction⟩ := Decimal.split_mul places n
  rw [written_split, hwhole, hfraction]
  rfl

section Whole
variable {d : Double} {n : Nat} (hpos : 0 < n) (hmagnitude : d.magnitude = n * one)
include hpos hmagnitude

theorem isZero_of_whole : d.isZero = false :=
  magnitude_pos_iff.mp (hmagnitude ▸ Nat.mul_pos hpos one_pos)

theorem generalExponent_of_whole (hlt : n < 10 ^ 16) : 0 ≤ d.generalExponent ∧ d.generalExponent < 16 := by
  have hlength := (Decimal.length_digits_le_iff (by decide)).mpr hlt
  have hlength_pos := Decimal.length_digits_pos n
  rw [generalExponent, hmagnitude, Decimal.exponent_atDigits_mul one_pos hpos hlt]
  omega

/-- A whole number below `1e21` is written with all its digits and nothing else. -/
theorem finiteText_of_whole (hlt : n < 10 ^ 21) :
    d.finiteText = Decimal.signed d.isNegative (Decimal.digits n) := by
  have hplaces : ∀ places, d.written (d.fixedRuns places) = Decimal.signed d.isNegative (Decimal.digits n) :=
    fun places => by rw [fixedRuns, hmagnitude, Decimal.atPlaces_mul one_pos, written_split_mul]
  have hone : one ≤ d.magnitude := hmagnitude ▸ Nat.le_mul_of_pos_left one hpos
  unfold finiteText
  rw [isZero_of_whole hpos hmagnitude, if_neg Bool.false_ne_true, isSmallFraction_of_one_le hone,
    if_neg Bool.false_ne_true]
  split
  · exact (laidOut_fixedRuns_zero d).trans (hplaces 0)
  · rename_i hlong
    have hshort : n < 10 ^ 16 := Nat.lt_of_not_le fun hle => hlong <| by
      rw [isLongWhole, hmagnitude, powerOfTen, powerOfTen, decide_eq_true (Nat.mul_le_mul_right one hle),
        decide_eq_true (Nat.mul_lt_mul_of_pos_right hlt one_pos)]
      rfl
    obtain ⟨hlow, hhigh⟩ := generalExponent_of_whole hpos hmagnitude hshort
    unfold generalText
    dsimp only
    rw [← generalExponent, if_neg (by omega)]
    exact hplaces _

theorem text_of_whole (hfinite : d.isFinite = true) (hlt : n < 10 ^ 21) :
    d.text = String.ofList (Decimal.signed d.isNegative (Decimal.digits n)) := by
  rw [text_of_isFinite hfinite, finiteText_of_whole hpos hmagnitude hlt]

/-- Such a number is read back as it was. -/
theorem toDouble?_text_of_whole (hfinite : d.isFinite = true) (hlt : n < 10 ^ 21) :
    (Text.ofString d.text).toDouble? = some d := by
  rw [text_of_whole hpos hmagnitude hfinite hlt, ← written_split_mul d 0 n, toDouble?_written_plain, ofDecimal_eq]
  show some (ofRatio d.isNegative (n * 1 * 1 * one) 1) = some d
  rw [Nat.mul_one, Nat.mul_one, ← hmagnitude, ofRatio_magnitude d (isNaN_of_isFinite hfinite)]

end Whole

/-- An integer is written like the doubles that have its value. -/
theorem int32Text_eq {n : Int32} {d : Double} (hfinite : d.isFinite = true) (hunits : d.units = n.toInt * one) :
    int32Text n = d.text := by
  have hlow := n.le_toInt
  have hhigh := n.toInt_lt
  by_cases hzero : n.toInt = 0
  · rw [text_of_isFinite hfinite, finiteText, isZero_of_units hunits, decide_eq_true hzero, if_pos rfl, int32Text,
      hzero]
    rfl
  · rw [text_of_whole (Int.natAbs_pos.mpr hzero) (magnitude_of_units hunits) hfinite (by omega),
      isNegative_of_units hunits hzero, int32Text]

end Double
end ScriptCore
