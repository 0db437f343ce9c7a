import ScriptCore.Calendar
import ScriptCore.Double.Spacing

/-! The second of a time.

A time is split in two by operations on doubles that round: a division gives its whole second, a remainder and a
product its nanoseconds. Doubles keep a distance from whole seconds that they are not on, more than the
division can lose (`quotient_lt_iff`, `lt_quotient_iff`), so the whole second is the right one in the reach of the
calendar (`le_wholeSecond_iff`). Nanoseconds stay below a full second as well, with one exception: the last
`2 ^ (-44)` milliseconds before 1970 are rounded up to a full second (`nanoseconds_lt_iff`). -/
namespace ScriptCore.Calendar

open Double

/-- The units of a second, which has a thousand milliseconds. -/
def second : Nat := 1000 * one

/-- The second that a finite time is in, counted from the beginning of 1970. -/
def secondOf (time : Double) : Int := time.units.fdiv second

/-- The units of `2 ^ (-44)` milliseconds, half the step between doubles just below a second. -/
def halfStep : Nat := 2 ^ 1030

/-- Before 1970, but by no more than half a step. -/
def IsLastInstant (time : Double) : Prop := time.units < 0 ∧ time.magnitude ≤ halfStep

theorem second_pos : 0 < second := Nat.mul_pos (by decide) Double.one_pos

theorem le_secondOf_iff {time : Double} {k : Int} : k ≤ secondOf time ↔ k * second ≤ time.units := by
  have hsecond : (0 : Int) < second := Int.natCast_pos.mpr second_pos
  rw [secondOf, Int.fdiv_eq_ediv_of_nonneg _ (Int.le_of_lt hsecond), Int.le_ediv_iff_mul_le hsecond]

/-! ### Distances from whole seconds -/

/-- The units between neighbouring doubles from `2 ^ (a + 9)` milliseconds on. -/
def step (a : Nat) : Nat := 2 ^ (a + 1031)

/-- Different multiples of a number are that number apart. -/
theorem add_le_of_dvd {d m n : Nat} (hm : d ∣ m) (hn : d ∣ n) (hlt : m < n) : m + d ≤ n := by
  have hle := Nat.le_of_dvd (by omega) (Nat.dvd_sub hn hm)
  omega

section Distance
variable {a k p m : Nat} (ha : a ≤ 43) (hlow : 2 ^ a ≤ k) (hhigh : k < 2 ^ (a + 1))

theorem mul_second (k : Nat) : k * second = k * one * 1000 := by rw [second, Nat.mul_comm 1000, Nat.mul_assoc]

theorem step_eq (a : Nat) : step a = 512 * 2 ^ (a + 1022) := by
  rw [step, show a + 1031 = 9 + (a + 1022) by omega, Nat.pow_add]

theorem step_dvd (hlarge : 2 ^ 52 * step a ≤ unitsOf p) : step a ∣ unitsOf p := two_pow_dvd_unitsOf hlarge

section Low
include hlow

theorem steps_le_mul_second : 1000 * (2 ^ 43 * step a) ≤ k * second := by
  have hpow : 2 ^ 43 * step a = 2 ^ a * one := by
    rw [step, ← Nat.pow_add, two_pow_mul_one, show 43 + (a + 1031) = a + 1074 by omega]
  rw [mul_second, hpow, Nat.mul_comm 1000]
  exact Nat.mul_le_mul_right 1000 (Nat.mul_le_mul_right one hlow)

end Low

section Small
include ha

theorem one_eq_steps : one = 2 ^ (43 - a) * step a := by
  rw [step, ← Nat.pow_add, show 43 - a + (a + 1031) = 1074 by omega, one]

/-- Whole seconds are multiples of the step between doubles of their size. -/
theorem dvd_mul_second (k : Nat) : step a ∣ k * second := by
  rw [second, one_eq_steps ha]
  exact Nat.dvd_mul_left_of_dvd (Nat.dvd_mul_left_of_dvd (Nat.dvd_mul_left _ _) _) _

include hlow

/-- A double below a whole second is a step below it. -/
theorem add_step_le (hlt : unitsOf p < k * second) : unitsOf p + step a ≤ k * second := by
  by_cases hlarge : 2 ^ 52 * step a ≤ unitsOf p
  · exact add_le_of_dvd (step_dvd hlarge) (dvd_mul_second ha k) hlt
  · have hfar := steps_le_mul_second hlow
    generalize step a = d at hfar hlarge ⊢
    omega

/-- A double above a whole second is a step above it. -/
theorem step_add_le (hlt : k * second < unitsOf p) : k * second + step a ≤ unitsOf p := by
  refine add_le_of_dvd (dvd_mul_second ha k) (step_dvd ?_) hlt
  have hfar := steps_le_mul_second hlow
  generalize step a = d at hfar ⊢
  omega

end Small

/-! ### Quotients -/

section High
include hhigh

theorem succ_mul_second_le : (k + 1) * second ≤ 2 ^ (a + 1022 + 53) * 1000 := by
  have hpow : 2 ^ (a + 1) * one = 2 ^ (a + 1022 + 53) := by
    rw [two_pow_mul_one, show a + 1 + 1074 = a + 1022 + 53 by omega]
  rw [mul_second, ← hpow]
  exact Nat.mul_le_mul_right 1000 (Nat.mul_le_mul_right one hhigh)

/-- Rounding does not reach from a step below a whole second. -/
theorem quotient_lt (hm : m + step a ≤ k * second) : unitsOf (roundUnits m 1000) < k * one := by
  have hbound := succ_mul_second_le hhigh
  have hpos := Nat.two_pow_pos (a + 1022)
  rw [Nat.add_mul, Nat.one_mul] at hbound
  rw [step_eq] at hm
  have hround := unitsOf_roundUnits_le (by decide : 0 < 1000) (show m < 2 ^ (a + 1022 + 53) * 1000 by omega)
  rw [mul_second] at hm
  omega

/-- Nor does it from a step above. -/
theorem lt_quotient (ha : a ≤ 43) (hm : k * second + step a ≤ m) :
    k * one < unitsOf (roundUnits m 1000) := by
  have hbound := succ_mul_second_le hhigh
  have hpos := Nat.two_pow_pos (a + 1022)
  have hstep : step a ≤ one := one_eq_steps ha ▸ Nat.le_mul_of_pos_left _ (Nat.two_pow_pos _)
  have hnear : k * second + step a < (k + 1) * second := by
    have hone := Double.one_pos
    rw [Nat.add_mul, Nat.one_mul, mul_second, second]
    omega
  obtain ⟨p, hp, hunits⟩ := exists_unitsOf_eq (n := k + 1) (by
    have hpow : 2 ^ (a + 1) ≤ 2 ^ 44 := Nat.pow_le_pow_right (by decide) (by omega)
    omega)
  have hfinite : roundUnits (k * second + step a) 1000 < infinityPattern := by
    refine Nat.lt_of_le_of_lt (roundUnits_le_of_le (by decide) (Nat.le_of_lt hp) ?_) hp
    rw [hunits, ← mul_second]
    exact Nat.le_of_lt hnear
  have hround := le_unitsOf_roundUnits (by decide : 0 < 1000) (Nat.lt_of_lt_of_le hnear hbound) hfinite
  have hmono := unitsOf_le (roundUnits_mono_left hm (by decide : 0 < 1000))
  rw [step_eq, mul_second] at hround hmono
  omega

end High
end Distance

section Quotient
variable {p k : Nat} (hpos : 0 < k) (hsmall : k < 2 ^ 44)
include hpos hsmall

theorem exists_log2 : ∃ a ≤ 43, 2 ^ a ≤ k ∧ k < 2 ^ (a + 1) := by
  obtain ⟨hlow, hhigh⟩ := (Nat.log2_eq_iff (Nat.ne_of_gt hpos)).mp rfl
  have hlog := (Nat.log2_lt (Nat.ne_of_gt hpos)).mpr hsmall
  exact ⟨k.log2, by omega, hlow, hhigh⟩

/-- The quotient is below a number of seconds just when the time is. -/
theorem quotient_lt_iff : unitsOf (roundUnits (unitsOf p) 1000) < k * one ↔ unitsOf p < k * second := by
  constructor
  · intro hlt
    refine Nat.lt_of_not_le fun hle => Nat.not_lt.mpr ?_ hlt
    obtain ⟨q, hq, hunits⟩ := exists_unitsOf_eq (n := k) (by omega)
    rw [mul_second, ← hunits] at hle
    rw [← hunits]
    exact unitsOf_le (le_roundUnits_of_le (by decide) (Nat.le_of_lt hq) hle)
  · intro hlt
    obtain ⟨a, ha, hlow, hhigh⟩ := exists_log2 hpos hsmall
    exact quotient_lt hhigh (add_step_le ha hlow hlt)

theorem lt_quotient_iff : k * one < unitsOf (roundUnits (unitsOf p) 1000) ↔ k * second < unitsOf p := by
  constructor
  · intro hlt
    refine Nat.lt_of_not_le fun hle => Nat.not_lt.mpr ?_ hlt
    obtain ⟨q, hq, hunits⟩ := exists_unitsOf_eq (n := k) (by omega)
    rw [mul_second, ← hunits] at hle
    rw [← hunits]
    exact unitsOf_le (roundUnits_le_of_le (by decide) (Nat.le_of_lt hq) hle)
  · intro hlt
    obtain ⟨a, ha, hlow, hhigh⟩ := exists_log2 hpos hsmall
    exact lt_quotient hhigh ha (step_add_le ha hlow hlt)

end Quotient

/-- Half a unit and less is rounded to zero. -/
theorem quotient_pos_iff {m : Nat} : 0 < unitsOf (roundUnits m 1000) ↔ 500 < m := by
  rw [Nat.pos_iff_ne_zero, ne_eq, unitsOf_eq_zero]
  constructor
  · exact fun hpos => Nat.lt_of_not_le fun hle => hpos (roundUnits_of_le_half (by decide) (by omega))
  · intro hlt hzero
    have hmono := roundUnits_mono_left (show 501 ≤ m from hlt) (by decide : 0 < 1000)
    have hup : roundUnits 501 1000 = 1 := by decide +kernel
    omega

/-! ### Whole seconds -/

theorem magnitude_thousand : (ofNat 1000).magnitude = second := magnitude_ofNat (by decide)

theorem units_thousand : (ofNat 1000).units = second := by
  rw [units_ofNat (by decide), second, Int.natCast_mul]

theorem isFinite_thousand : (ofNat 1000).isFinite = true := isFinite_ofNat (by decide)

theorem isZero_thousand : (ofNat 1000).isZero = false := isZero_ofNat (by decide)

section Whole
variable {time : Double} (htime : time.isFinite = true)
include htime

theorem units_div_thousand : (time.div (ofNat 1000)).units =
    if time.isNegative then -(unitsOf (roundUnits time.magnitude 1000) : Int)
    else unitsOf (roundUnits time.magnitude 1000) := by
  have hsign : (ofNat 1000).isNegative = false := isNegative_ofRatio _ _ _
  rw [div_of_isFinite htime isFinite_thousand isZero_thousand, magnitude_thousand, second, hsign, Bool.bne_false,
    ofRatio, roundUnits_scale _ _ Double.one_pos, units_ofPattern _ (lt_of_le_infinityPattern (roundUnits_le _ _))]

variable (hlast : time.units < 0 → 500 < time.magnitude)
include hlast

/-- Only a time of at most 500 units before 1970 is lost by the division. -/
theorem le_units_div_iff {k : Int} (hk : k.natAbs < 2 ^ 44) :
    k * one ≤ (time.div (ofNat 1000)).units ↔ k * second ≤ time.units := by
  rw [units_div_thousand htime]
  unfold units at hlast ⊢
  rw [magnitude] at hlast ⊢
  obtain ⟨n, hn⟩ := Int.eq_nat_or_neg k
  have hsmall : n < 2 ^ 44 := by omega
  -- On the side of the time the comparison is one of magnitudes, on the other side of zero there is nothing to show.
  have hproducts : (n : Int) * one = (n * one : Nat) ∧ (n : Int) * second = (n * second : Nat) :=
    ⟨(Int.natCast_mul n one).symm, (Int.natCast_mul n second).symm⟩
  rcases Nat.eq_zero_or_pos n with rfl | hpos
  · have hzero : k = 0 := by omega
    have hquotient := quotient_pos_iff (m := unitsOf time.pattern)
    rw [hzero, Int.zero_mul, Int.zero_mul]
    cases hneg : time.isNegative with
    | false =>
      rw [if_neg Bool.false_ne_true, if_neg Bool.false_ne_true]
      omega
    | true =>
      rw [hneg, if_pos rfl] at hlast
      rw [if_pos rfl, if_pos rfl]
      omega
  · have hbelow := quotient_lt_iff (p := time.pattern) hpos hsmall
    have habove := lt_quotient_iff (p := time.pattern) hpos hsmall
    have hone := Nat.mul_pos hpos Double.one_pos
    have hsecond := Nat.mul_pos hpos second_pos
    rcases hn with rfl | rfl
    · rw [hproducts.1, hproducts.2]
      split <;> omega
    · rw [Int.neg_mul, Int.neg_mul, hproducts.1, hproducts.2]
      split <;> omega

/-- The whole second is right in the reach of the calendar. -/
theorem le_wholeSecond_iff {k : Int} (hk : k.natAbs < 2 ^ 44) : k ≤ wholeSecond time ↔ k ≤ secondOf time := by
  have hone : (0 : Int) < one := Int.natCast_pos.mpr Double.one_pos
  rw [wholeSecond, floor, Int.fdiv_eq_ediv_of_nonneg _ (Int.le_of_lt hone), Int.le_ediv_iff_mul_le hone,
    le_units_div_iff htime hlast hk, le_secondOf_iff]

end Whole

/-! ### Nanoseconds -/

section Rest
variable {p rest : Nat}

theorem step_zero : step 0 = 2 * halfStep := by decide +kernel

theorem halfStep_pos : 0 < halfStep := by
  have hpos := Nat.two_pow_pos 1030
  unfold halfStep
  omega

theorem halfStep_lt_second : halfStep < second := by decide +kernel

theorem rest_add_le (p : Nat) : unitsOf p % second + 2 * halfStep ≤ second := by
  have hsecond : unitsOf (ofNat 1000).pattern = second := magnitude_thousand
  obtain ⟨r, -, hr⟩ := exists_unitsOf_mod p (hsecond ▸ second_pos)
  rw [hsecond] at hr
  have hlt := Nat.mod_lt (unitsOf p) second_pos
  have hfar := add_step_le (a := 0) (k := 1) (p := r) (by decide) (by decide) (by rw [Nat.one_mul, hr]; exact hlt)
  rwa [step_zero, Nat.one_mul, hr] at hfar

/-- What remains of a time of more than half a step is nothing or more than half a step. -/
theorem halfStep_lt_rest (hlarge : halfStep < unitsOf p) (hrest : unitsOf p % second ≠ 0) :
    halfStep < unitsOf p % second := by
  rcases Nat.lt_or_ge (unitsOf p) second with hlt | hle
  · exact (Nat.mod_eq_of_lt hlt).symm ▸ hlarge
  · have hfar := steps_le_mul_second (a := 0) (k := 1) (by decide)
    have hpos := halfStep_pos
    rw [step_zero, Nat.one_mul] at hfar
    have htime : step 0 ∣ unitsOf p := step_dvd (by rw [step_zero]; omega)
    have hsecond := dvd_mul_second (a := 0) (by decide) 1
    rw [Nat.one_mul] at hsecond
    have hle := Nat.le_of_dvd (Nat.pos_of_ne_zero hrest) ((Nat.dvd_mod_iff hsecond).mpr htime)
    rw [step_zero] at hle
    omega

/-- A second less more than half a step is rounded to a double below the second. -/
theorem second_sub_add_le (hrest : halfStep < rest) :
    unitsOf (roundUnits (second - rest) 1) + 2 * halfStep ≤ second := by
  have hmono := unitsOf_le (roundUnits_mono_left (show second - rest ≤ second - halfStep - 1 by omega) Nat.one_pos)
  have hdown : unitsOf (roundUnits (second - halfStep - 1) 1) + 2 * halfStep ≤ second := by decide +kernel
  omega

/-- A second less half a step or less is rounded to the second. -/
theorem roundUnits_second_sub (hrest : rest ≤ halfStep) : roundUnits (second - rest) 1 = roundUnits second 1 := by
  have hup : roundUnits (second - halfStep) 1 = roundUnits second 1 := by decide +kernel
  refine Nat.le_antisymm (roundUnits_mono_left (Nat.sub_le _ _) Nat.one_pos) ?_
  rw [← hup]
  exact roundUnits_mono_left (Nat.sub_le_sub_left hrest second) Nat.one_pos

end Rest

/-- A step below a second there are less nanoseconds than in the second. -/
theorem nanoseconds_of_add_le {d : Double} (hd : d.isFinite = true) (hle : d.magnitude + 2 * halfStep ≤ second) :
    (d.mul (ofNat 1000000)).toUInt32.toNat < 1000000000 := by
  have hmillion : 1000000 < 2 ^ 53 := by decide
  have hproduct : (d.mul (ofNat 1000000)).pattern = roundUnits (d.magnitude * 1000000) 1 := by
    have hscale := roundUnits_scale (d.magnitude * 1000000) 1 Double.one_pos
    rw [Nat.one_mul, Nat.mul_assoc] at hscale
    rw [mul_of_isFinite hd (isFinite_ofNat hmillion), pattern_ofRatio, magnitude_ofNat hmillion, hscale]
  have hmono := unitsOf_le (roundUnits_mono_left
    (Nat.mul_le_mul_right 1000000 (show d.magnitude ≤ second - 2 * halfStep by omega)) Nat.one_pos)
  have hbelow : unitsOf (roundUnits ((second - 2 * halfStep) * 1000000) 1) < 1000000000 * one := by decide +kernel
  have hlt : (d.mul (ofNat 1000000)).magnitude < 1000000000 * one := by
    rw [magnitude, hproduct]
    exact Nat.lt_of_le_of_lt hmono hbelow
  have hfinite : (d.mul (ofNat 1000000)).isFinite = true :=
    isFinite_of_magnitude_lt (Nat.lt_of_lt_of_le hlt (Nat.mul_le_mul_right one (by decide)))
  exact Nat.lt_of_le_of_lt (toUInt32_le hfinite) ((Nat.div_lt_iff_lt_mul Double.one_pos).mpr hlt)

section Remainder
variable {time : Double} (htime : time.isFinite = true)
include htime

theorem rem_numLt_zero : (time.rem (ofNat 1000)).numLt (zero false) =
    decide (time.isNegative = true ∧ time.magnitude % second ≠ 0) := by
  have hfinite := isFinite_rem htime isFinite_thousand isZero_thousand
  rw [numLt_zero (isNaN_of_isFinite hfinite), decide_eq_decide, key_neg_iff, units_lt_zero_iff,
    isNegative_rem htime isFinite_thousand isZero_thousand, magnitude_rem htime isFinite_thousand isZero_thousand,
    magnitude_thousand]

theorem modulo_of_not_below (hside : ¬ (time.isNegative = true ∧ time.magnitude % second ≠ 0)) :
    time.modulo (ofNat 1000) = time.rem (ofNat 1000) := by
  rw [modulo, rem_numLt_zero htime, decide_eq_false hside]
  exact if_neg Bool.false_ne_true

theorem modulo_of_below (hneg : time.isNegative = true) (hrest : time.magnitude % second ≠ 0) :
    time.modulo (ofNat 1000) = ofRatio false (second - time.magnitude % second) 1 := by
  have hunits := units_rem htime isFinite_thousand isZero_thousand
  have hlt := Nat.mod_lt time.magnitude second_pos
  rw [magnitude_thousand, if_pos hneg] at hunits
  rw [modulo, rem_numLt_zero htime, decide_eq_true ⟨hneg, hrest⟩]
  have hsum : (time.rem (ofNat 1000)).units + (ofNat 1000).units = (second - time.magnitude % second : Nat) := by
    rw [hunits, units_thousand]
    omega
  have hsign : (if ((second - time.magnitude % second : Nat) : Int) = 0 then
        (time.rem (ofNat 1000)).isNegative && (ofNat 1000).isNegative
      else decide (((second - time.magnitude % second : Nat) : Int) < 0)) = false := by
    rw [if_neg (by omega), decide_eq_false (by omega)]
  rw [if_pos rfl, abs_ofNat (by decide), add_of_isFinite (isFinite_rem htime isFinite_thousand isZero_thousand)
    isFinite_thousand, hsum, hsign, Int.natAbs_natCast]

/-- Before and after the last instant the remainder is a step below the second. -/
theorem modulo_add_le (hlast : ¬ IsLastInstant time) :
    (time.modulo (ofNat 1000)).isFinite = true ∧ (time.modulo (ofNat 1000)).magnitude + 2 * halfStep ≤ second := by
  by_cases hbelow : time.isNegative = true ∧ time.magnitude % second ≠ 0
  · obtain ⟨hneg, hrest⟩ := hbelow
    have hnonzero : time.magnitude ≠ 0 := fun hzero => hrest (by rw [hzero, Nat.zero_mod])
    have hlarge : halfStep < time.magnitude :=
      Nat.lt_of_not_le fun hle => hlast ⟨units_lt_zero_iff.mpr ⟨hneg, hnonzero⟩, hle⟩
    have hle := second_sub_add_le (halfStep_lt_rest hlarge hrest)
    have hmagnitude : (time.modulo (ofNat 1000)).magnitude =
        unitsOf (roundUnits (second - unitsOf time.pattern % second) 1) := by
      rw [modulo_of_below htime hneg hrest, magnitude, pattern_ofRatio, magnitude]
    have hsecond : second < 2 ^ 53 * one := Nat.mul_lt_mul_of_pos_right (by decide) Double.one_pos
    rw [← hmagnitude] at hle
    exact ⟨isFinite_of_magnitude_lt (by omega), hle⟩
  · rw [modulo_of_not_below htime hbelow, magnitude_rem htime isFinite_thousand isZero_thousand, magnitude_thousand]
    exact ⟨isFinite_rem htime isFinite_thousand isZero_thousand, rest_add_le time.pattern⟩

theorem modulo_of_isLastInstant (hlast : IsLastInstant time) : time.modulo (ofNat 1000) = ofNat 1000 := by
  obtain ⟨hunits, hle⟩ := hlast
  obtain ⟨hneg, hnonzero⟩ := units_lt_zero_iff.mp hunits
  have hmod : time.magnitude % second = time.magnitude := Nat.mod_eq_of_lt (Nat.lt_of_le_of_lt hle halfStep_lt_second)
  rw [modulo_of_below htime hneg (hmod.symm ▸ hnonzero), hmod, ofRatio, roundUnits_second_sub hle, ofNat, ofRatio,
    second]

theorem nanoseconds_of_isLastInstant (hlast : IsLastInstant time) : (nanoseconds time).toNat = 10 ^ 9 := by
  rw [nanoseconds, modulo_of_isLastInstant htime hlast]
  decide +kernel

/-- Nanoseconds make a full second only in the last instant before 1970. -/
theorem nanoseconds_lt_iff : (nanoseconds time).toNat < 10 ^ 9 ↔ ¬ IsLastInstant time := by
  refine ⟨fun hlt hlast => ?_, fun hlast => ?_⟩
  · rw [nanoseconds_of_isLastInstant htime hlast] at hlt
    exact Nat.lt_irrefl _ hlt
  · obtain ⟨hfinite, hle⟩ := modulo_add_le htime hlast
    exact nanoseconds_of_add_le hfinite hle

end Remainder
end ScriptCore.Calendar
