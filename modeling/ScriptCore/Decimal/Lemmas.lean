import Mathlib.Data.List.DropRight
import ScriptCore.Decimal.Layout

/-! Digits and roundings.

The digits of a number denote it (`valueOf_digits`), and so do the digits around a point when the point is
not counted (`valueOf_split`); zeros that are dropped make a power of ten. The power of ten
below a fraction is its leading one (`le_of_leadingExponent`, `leadingExponent_eq`). Rounding keeps three
quarters at least of what is two steps or more (`three_mul_le_roundHalfEven`). -/
namespace ScriptCore.Decimal

theorem ten_pow_pos (n : Nat) : 0 < 10 ^ n := Nat.pow_pos (by decide)

/-! ### Runs of digits -/

theorem valueOf_digits (n : Nat) : valueOf (digits n) = n := Nat.ofDigitChars_ten_toDigits

theorem valueOf_append (ds es : List Char) : valueOf (ds ++ es) = 10 ^ es.length * valueOf ds + valueOf es :=
  (Nat.ofDigitChars_append 0).trans Nat.ofDigitChars_eq_ofDigitChars_zero

theorem valueOf_replicate (k : Nat) : valueOf (List.replicate k '0') = 0 :=
  Nat.ofDigitChars_replicate_zero.trans (Nat.mul_zero _)

theorem length_digits_le_iff {n k : Nat} (hk : 0 < k) : (digits n).length ≤ k ↔ n < 10 ^ k :=
  Nat.length_toDigits_le_iff (by decide) hk

theorem length_digits_pos (n : Nat) : 0 < (digits n).length := Nat.length_toDigits_pos

/-- A number lies between the powers of ten that its length names. -/
theorem lt_pow_length_digits (n : Nat) : n < 10 ^ (digits n).length :=
  (length_digits_le_iff (length_digits_pos n)).mp (Nat.le_refl _)

theorem pow_length_digits_le {n : Nat} (hn : 0 < n) : 10 ^ ((digits n).length - 1) ≤ n := by
  by_cases hone : (digits n).length = 1
  · rw [hone]
    exact hn
  · have hpos := length_digits_pos n
    refine Nat.le_of_not_lt fun hlt => ?_
    have hle := (length_digits_le_iff (by omega)).mpr hlt
    omega

theorem length_padLeft (width : Nat) (ds : List Char) (h : ds.length ≤ width) :
    (padLeft width ds).length = width := by
  rw [padLeft, List.length_append, List.length_replicate, Nat.sub_add_cancel h]

theorem valueOf_padLeft (width : Nat) (ds : List Char) : valueOf (padLeft width ds) = valueOf ds := by
  rw [padLeft, valueOf_append, valueOf_replicate, Nat.mul_zero, Nat.zero_add]

theorem length_split (places n : Nat) : (split places n).2.length = places := by
  unfold split
  split
  · rename_i hzero
    rw [hzero, List.length_nil]
  · rename_i hplaces
    refine length_padLeft _ _ ((length_digits_le_iff (Nat.pos_of_ne_zero hplaces)).mpr ?_)
    exact Nat.mod_lt _ (ten_pow_pos places)

/-- A point stands before the places that it is given, and does not change the digits. -/
theorem valueOf_split (places n : Nat) : valueOf ((split places n).1 ++ (split places n).2) = n := by
  have hfraction : valueOf (split places n).2 = n % 10 ^ places := by
    unfold split
    split
    · rename_i hzero
      rw [hzero, Nat.pow_zero, Nat.mod_one]
      rfl
    · rw [valueOf_padLeft, valueOf_digits]
  rw [valueOf_append, length_split, hfraction, split, valueOf_digits, Nat.div_add_mod]

/-- Only zeros are dropped. -/
theorem exists_zeros (ds : List Char) : ∃ k, ds = dropTrailingZeros ds ++ List.replicate k '0' := by
  refine ⟨(ds.rtakeWhile (· == '0')).length, ?_⟩
  have hzeros : ds.rtakeWhile (· == '0') = List.replicate (ds.rtakeWhile (· == '0')).length '0' :=
    List.eq_replicate_iff.mpr ⟨rfl, fun c hc => by simpa using List.mem_rtakeWhile_imp hc⟩
  rw [← hzeros]
  exact List.rdropWhile_append_rtakeWhile.symm

theorem getLast?_dropTrailingZeros (ds : List Char) : (dropTrailingZeros ds).getLast? ≠ some '0' := by
  intro hlast
  have hlast : (ds.rdropWhile (· == '0')).getLast? = some '0' := hlast
  obtain ⟨hne, hzero⟩ := List.mem_getLast?_eq_getLast hlast
  exact List.rdropWhile_last_not (· == '0') ds hne (by rw [← hzero]; rfl)

/-- The places of a whole number are zeros. -/
theorem split_mul (places n : Nat) :
    (split places (n * 10 ^ places)).1 = digits n ∧ dropTrailingZeros (split places (n * 10 ^ places)).2 = [] := by
  unfold split
  rw [Nat.mul_div_cancel _ (ten_pow_pos places), Nat.mul_mod_left]
  refine ⟨rfl, ?_⟩
  split
  · rfl
  · have hzeros : padLeft places (digits 0) = List.replicate (places - 1 + 1) '0' := List.replicate_succ'.symm
    rw [hzeros]
    simp [dropTrailingZeros]

/-! ### Leading exponents -/

theorem le_of_leadingExponent {num den : Nat} (hnum : 0 < num) (hden : 0 < den) :
    den * 10 ^ (leadingExponent num den).toNat ≤ num * 10 ^ (-leadingExponent num den).toNat := by
  unfold leadingExponent
  split
  · rename_i hle
    have hlength := length_digits_pos (num / den)
    have hquotient := pow_length_digits_le (Nat.div_pos hle hden)
    have htoNat : ((digits (num / den)).length - 1 : Int).toNat = (digits (num / den)).length - 1 := by omega
    have hneg : (-((digits (num / den)).length - 1 : Int)).toNat = 0 := by omega
    rw [htoNat, hneg, Nat.pow_zero, Nat.mul_one, Nat.mul_comm]
    exact (Nat.le_div_iff_mul_le hden).mp hquotient
  · rename_i hlt
    have hquotient := lt_pow_length_digits ((den - 1) / num)
    have htoNat : (-((digits ((den - 1) / num)).length : Int)).toNat = 0 := by omega
    have hneg : (-(-((digits ((den - 1) / num)).length : Int))).toNat = (digits ((den - 1) / num)).length := by
      omega
    have hbelow := (Nat.div_lt_iff_lt_mul hnum).mp hquotient
    rw [htoNat, hneg, Nat.pow_zero, Nat.mul_one, Nat.mul_comm]
    omega

theorem leadingExponent_eq {num den k : Nat} (hden : 0 < den) (hlow : den * 10 ^ k ≤ num)
    (hhigh : num < den * 10 ^ (k + 1)) : leadingExponent num den = k := by
  have hlower : 10 ^ k ≤ num / den := (Nat.le_div_iff_mul_le hden).mpr (Nat.mul_comm _ _ ▸ hlow)
  have hupper : num / den < 10 ^ (k + 1) := (Nat.div_lt_iff_lt_mul hden).mpr (Nat.mul_comm _ _ ▸ hhigh)
  have hle : den ≤ num := Nat.le_trans (Nat.le_mul_of_pos_right den (ten_pow_pos k)) hlow
  have hlength : (digits (num / den)).length = k + 1 := by
    refine Nat.le_antisymm ((length_digits_le_iff (Nat.succ_pos k)).mpr hupper) (Nat.lt_of_not_le fun hshort => ?_)
    have hbelow := lt_pow_length_digits (num / den)
    exact Nat.not_lt.mpr hlower (Nat.lt_of_lt_of_le hbelow (Nat.pow_le_pow_right (by decide) hshort))
  rw [leadingExponent, if_pos hle, hlength]
  omega

/-- A power of ten below the leading one is a tenth of the fraction at most. -/
theorem ten_mul_le_of_lt_leadingExponent {num den : Nat} (hnum : 0 < num) (hden : 0 < den) {step : Int}
    (hstep : step < leadingExponent num den) :
    10 * (den * 10 ^ step.toNat) ≤ num * 10 ^ (-step).toNat := by
  have hleading := le_of_leadingExponent hnum hden
  generalize leadingExponent num den = e at hstep hleading
  apply Nat.le_of_mul_le_mul_right _ (ten_pow_pos (-e).toNat)
  calc 10 * (den * 10 ^ step.toNat) * 10 ^ (-e).toNat
    _ = den * 10 ^ (step.toNat + (-e).toNat + 1) := by
      rw [Nat.pow_succ, Nat.pow_add]
      ac_rfl
    _ ≤ den * 10 ^ (e.toNat + (-step).toNat) :=
      Nat.mul_le_mul_left _ (Nat.pow_le_pow_right (by decide) (by omega))
    _ = den * 10 ^ e.toNat * 10 ^ (-step).toNat := by rw [Nat.pow_add, Nat.mul_assoc]
    _ ≤ num * 10 ^ (-e).toNat * 10 ^ (-step).toNat := Nat.mul_le_mul_right _ hleading
    _ = num * 10 ^ (-step).toNat * 10 ^ (-e).toNat := Nat.mul_right_comm _ _ _

theorem natAbs_leadingExponent_le {num den k : Nat} (hk : 0 < k) (hnum : num < 10 ^ k) (hden : den < 10 ^ k) :
    (leadingExponent num den).natAbs ≤ k := by
  have hlength : ∀ n, n < 10 ^ k → (digits n).length ≤ k := fun n hn => (length_digits_le_iff hk).mpr hn
  unfold leadingExponent
  split
  · have hle := hlength (num / den) (Nat.lt_of_le_of_lt (Nat.div_le_self _ _) hnum)
    omega
  · have hle := hlength ((den - 1) / num) (Nat.lt_of_le_of_lt (Nat.div_le_self _ _) (by omega))
    omega

/-! ### Steps -/

/-- A step is a power of ten above or below the fraction. -/
theorem atStep_eq (step : Int) (num den : Nat) :
    atStep step num den = roundHalfEven (num * 10 ^ (-step).toNat) (den * 10 ^ step.toNat) := by
  cases step with
  | ofNat s => rw [atStep, show (Int.ofNat s).toNat = s from rfl, show (-Int.ofNat s).toNat = 0 by simp,
      Nat.pow_zero, Nat.mul_one]
  | negSucc s => rw [atStep, show (Int.negSucc s).toNat = 0 from rfl,
      show (-Int.negSucc s).toNat = s + 1 from rfl, Nat.pow_zero, Nat.mul_one]

theorem atStep_mono {m n : Nat} (h : m ≤ n) (step : Int) (den : Nat) : atStep step m den ≤ atStep step n den := by
  rw [atStep_eq, atStep_eq]
  exact roundHalfEven_mono (Nat.mul_le_mul_right _ h) _

theorem atPlaces_eq (places num den : Nat) : atPlaces places num den = atStep (-places) num den := by
  rw [atStep_eq, Int.neg_neg, Int.toNat_natCast, Int.toNat_of_nonpos (by omega), Nat.pow_zero, Nat.mul_one,
    atPlaces]

/-- A significand of one digit more is a power of ten, and gives its last zero to the exponent. -/
theorem atDigits_cases (count num den : Nat) :
    atDigits count num den =
        ⟨atStep (leadingExponent num den - (count - 1)) num den, leadingExponent num den⟩ ∨
      atStep (leadingExponent num den - (count - 1)) num den = 10 ^ count ∧
        atDigits count num den = ⟨10 ^ (count - 1), leadingExponent num den + 1⟩ := by
  unfold atDigits
  dsimp only
  split
  · exact .inr ⟨‹_›, rfl⟩
  · exact .inl rfl

/-! ### Whole numbers -/

section Whole
variable {n den : Nat} (hden : 0 < den)
include hden

theorem atPlaces_mul (places n : Nat) : atPlaces places (n * den) den = n * 10 ^ places := by
  rw [atPlaces, Nat.mul_right_comm, roundHalfEven_mul _ _ hden]

theorem leadingExponent_mul (hn : 0 < n) : leadingExponent (n * den) den = (digits n).length - 1 := by
  rw [leadingExponent, if_pos (Nat.le_mul_of_pos_left den hn), Nat.mul_div_cancel _ hden]

/-- A whole number is not rounded to as many digits as it has, so there is no carry. -/
theorem exponent_atDigits_mul {count : Nat} (hn : 0 < n) (hlt : n < 10 ^ count) :
    (atDigits count (n * den) den).exponent = (digits n).length - 1 := by
  have hcases := atDigits_cases count (n * den) den
  rw [leadingExponent_mul hden hn] at hcases
  rcases hcases with heq | ⟨hcarry, heq⟩
  · rw [heq]
  · have hcount : 0 < count := Nat.pos_of_ne_zero fun hzero => by
      rw [hzero, Nat.pow_zero] at hlt
      omega
    have hlength := (length_digits_le_iff hcount).mpr hlt
    have hstep : ((digits n).length - 1 - (count - 1) : Int) = -(count - (digits n).length : Nat) := by omega
    rw [hstep, ← atPlaces_eq, atPlaces_mul hden] at hcarry
    have hbelow : n * 10 ^ (count - (digits n).length) < 10 ^ count := by
      calc n * 10 ^ (count - (digits n).length)
        _ < 10 ^ (digits n).length * 10 ^ (count - (digits n).length) :=
          Nat.mul_lt_mul_of_pos_right (lt_pow_length_digits n) (ten_pow_pos _)
        _ = 10 ^ count := by rw [← Nat.pow_add, Nat.add_sub_cancel' hlength]
    exact absurd hcarry (Nat.ne_of_lt hbelow)

end Whole

/-! ### Bounds -/

/-- Rounding takes away half a step at most, which is a quarter of two steps. -/
theorem three_mul_le_roundHalfEven {num den : Nat} (hden : 0 < den) (h : 2 * den ≤ num) :
    3 * num ≤ 4 * (roundHalfEven num den * den) := by
  have hhalf := le_two_mul_roundHalfEven num hden
  omega

section Bounds
variable {num den : Nat} (hden : 0 < den) {step : Int}
include hden

theorem three_mul_le_atStep (hsteps : 2 * (den * 10 ^ step.toNat) ≤ num * 10 ^ (-step).toNat) :
    3 * (num * 10 ^ (-step).toNat) ≤ atStep step num den * 10 ^ step.toNat * den * 4 := by
  calc 3 * (num * 10 ^ (-step).toNat)
    _ ≤ 4 * (atStep step num den * (den * 10 ^ step.toNat)) := by
      rw [atStep_eq]
      exact three_mul_le_roundHalfEven (Nat.mul_pos hden (ten_pow_pos _)) hsteps
    _ = atStep step num den * 10 ^ step.toNat * den * 4 := by ac_rfl

theorem step_le_of_two_steps (hsteps : 2 * (den * 10 ^ step.toNat) ≤ num * 10 ^ (-step).toNat) {k : Nat}
    (hnum : num ≤ 10 ^ k * den) : step ≤ k := by
  refine Int.not_lt.mp fun hlt => ?_
  have hpower : den * 10 ^ k ≤ den * 10 ^ step.toNat :=
    Nat.mul_le_mul_left _ (Nat.pow_le_pow_right (by decide) (by omega))
  have hpos : 0 < den * 10 ^ k := Nat.mul_pos hden (ten_pow_pos k)
  rw [Int.toNat_of_nonpos (by omega : -step ≤ 0), Nat.pow_zero, Nat.mul_one] at hsteps
  rw [Nat.mul_comm] at hnum
  omega

/-- A power of ten is not rounded to a smaller step, so nothing below it is rounded beyond it. -/
theorem atStep_le {k : Nat} (hstep : step ≤ k) (hnum : num ≤ 10 ^ k * den) :
    atStep step num den * 10 ^ step.toNat * den ≤ 10 ^ k * den * 10 ^ (-step).toNat := by
  have hexponent : (k - step).toNat + step.toNat = k + (-step).toNat := by omega
  have hdigits : atStep step num den ≤ 10 ^ (k - step).toNat := by
    rw [atStep_eq]
    refine roundHalfEven_le (Nat.mul_pos hden (ten_pow_pos _)) ?_
    calc num * 10 ^ (-step).toNat
      _ ≤ 10 ^ k * den * 10 ^ (-step).toNat := Nat.mul_le_mul_right _ hnum
      _ = den * 10 ^ (k + (-step).toNat) := by
        rw [Nat.pow_add]
        ac_rfl
      _ = 10 ^ (k - step).toNat * (den * 10 ^ step.toNat) := by
        rw [← hexponent, Nat.pow_add]
        ac_rfl
  calc atStep step num den * 10 ^ step.toNat * den
    _ ≤ 10 ^ (k - step).toNat * 10 ^ step.toNat * den :=
      Nat.mul_le_mul_right _ (Nat.mul_le_mul_right _ hdigits)
    _ = 10 ^ k * den * 10 ^ (-step).toNat := by
      rw [← Nat.pow_add, hexponent, Nat.pow_add]
      ac_rfl

end Bounds
end ScriptCore.Decimal
