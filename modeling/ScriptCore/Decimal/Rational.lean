import Mathlib.Algebra.Order.Field.Power
import Mathlib.Algebra.Order.Field.Rat
import Mathlib.Tactic.FieldSimp
import Mathlib.Tactic.Linarith
import Mathlib.Tactic.Positivity
import ScriptCore.Decimal.Lemmas

/-! Roundings as rational numbers.

What a fraction is rounded to is the nearest integer, and the even one of two that are as near
(`isNearestEven_roundHalfEven`). A number has one such integer and a greater number no smaller one
(`IsNearestEven.le`), so rounding to steps of a power of ten does not cross a power of ten that is a step at least
(`pow_le_atStep`, `atStep_le_pow`). A number is rounded to significant digits by steps that its leading power of
ten gives (`IsRounded`). That is what `atDigits` finds, also when it carries (`isRounded_iff_atDigits`), and
rounding once more by the steps of what was found finds the same number (`atStep_exponent`). -/
namespace ScriptCore

/-! ### Nearest integers -/

/-- The integer is nearest to the number, and even if another one is as near. -/
structure IsNearestEven (x : ℚ) (n : ℕ) : Prop where
  near : |x - n| ≤ 1 / 2
  even : |x - n| = 1 / 2 → n % 2 = 0

theorem isNearestEven_of_lt {x : ℚ} {n : ℕ} (h : |x - n| < 1 / 2) : IsNearestEven x n :=
  ⟨h.le, fun heq => absurd heq h.ne⟩

theorem isNearestEven_natCast (n : ℕ) : IsNearestEven n n := isNearestEven_of_lt (by norm_num)

/-- A greater number is not nearest to a smaller integer. -/
theorem IsNearestEven.le {x y : ℚ} {m n : ℕ} (hm : IsNearestEven x m) (hn : IsNearestEven y n) (hxy : x ≤ y) :
    m ≤ n := by
  refine Nat.le_of_not_lt fun hlt => ?_
  have hstep : (n : ℚ) + 1 ≤ m := by exact_mod_cast hlt
  obtain ⟨hxlow, -⟩ := abs_le.mp hm.near
  obtain ⟨-, hyhigh⟩ := abs_le.mp hn.near
  -- Both numbers are halfway between neighbours, which are not both even.
  have hx : x - m = -(1 / 2) := by linarith
  have hy : y - n = 1 / 2 := by linarith
  have hsucc : m = n + 1 := by
    have hcast : (m : ℚ) = n + 1 := by linarith
    exact_mod_cast hcast
  have hmeven := hm.even (by rw [hx, abs_neg, abs_of_pos (by norm_num)])
  have hneven := hn.even (by rw [hy, abs_of_pos (by norm_num)])
  omega

theorem IsNearestEven.unique {x : ℚ} {m n : ℕ} (hm : IsNearestEven x m) (hn : IsNearestEven x n) : m = n :=
  Nat.le_antisymm (hm.le hn le_rfl) (hn.le hm le_rfl)

section Distance
variable {x : ℚ} {m n : ℕ}

theorem one_le_abs_sub_add (hne : m ≠ n) : 1 ≤ |x - m| + |x - n| := by
  have hcast : (m : ℤ) - n ≠ 0 := by omega
  have hapart : (1 : ℚ) ≤ |(m : ℚ) - n| := by exact_mod_cast Int.one_le_abs hcast
  have htriangle := abs_sub_le (m : ℚ) x n
  rw [abs_sub_comm (m : ℚ) x] at htriangle
  exact hapart.trans htriangle

theorem IsNearestEven.abs_sub_le (hn : IsNearestEven x n) (m : ℕ) : |x - n| ≤ |x - m| := by
  by_cases hne : m = n
  · rw [hne]
  · have hapart := one_le_abs_sub_add (x := x) hne
    linarith [hn.near]

theorem IsNearestEven.even_of_abs_sub_eq (hn : IsNearestEven x n) (hne : m ≠ n) (heq : |x - m| = |x - n|) :
    n % 2 = 0 := by
  have hapart := one_le_abs_sub_add (x := x) hne
  exact hn.even (le_antisymm hn.near (by linarith))

end Distance

theorem isNearestEven_roundHalfEven (num : ℕ) {den : ℕ} (hden : 0 < den) :
    IsNearestEven (num / den : ℚ) (roundHalfEven num den) := by
  have hpos : (0 : ℚ) < den := by exact_mod_cast hden
  have hsplit : (num : ℚ) = (num / den : ℕ) * den + (num % den : ℕ) := by
    exact_mod_cast (Nat.div_add_mod' num den).symm
  have hfraction : (num / den : ℚ) = (num / den : ℕ) + (num % den : ℕ) / den := by
    rw [div_eq_iff hpos.ne', add_mul, div_mul_cancel₀ _ hpos.ne']
    exact hsplit
  have hrest : (0 : ℚ) ≤ (num % den : ℕ) / den := by positivity
  have hceil : ((num % den : ℕ) : ℚ) / den < 1 := by
    rw [div_lt_one hpos]
    exact_mod_cast Nat.mod_lt num hden
  rcases Nat.lt_trichotomy (2 * (num % den)) den with hlt | heq | hgt
  · refine isNearestEven_of_lt ?_
    have hhalf : ((num % den : ℕ) : ℚ) / den < 1 / 2 := by
      rw [div_lt_div_iff₀ hpos (by norm_num), one_mul, mul_comm]
      exact_mod_cast hlt
    rw [roundHalfEven_of_lt hlt, hfraction, add_sub_cancel_left, abs_of_nonneg hrest]
    exact hhalf
  · have hhalf : ((num % den : ℕ) : ℚ) / den = 1 / 2 := by
      rw [div_eq_div_iff hpos.ne' (by norm_num), one_mul, mul_comm]
      exact_mod_cast heq
    rw [roundHalfEven_of_eq heq, hfraction, hhalf]
    split
    · rename_i heven
      exact ⟨by rw [add_sub_cancel_left, abs_of_pos (by norm_num)], fun _ => heven⟩
    · rename_i hodd
      refine ⟨?_, fun _ => by omega⟩
      push_cast
      rw [add_sub_add_left_eq_sub, abs_of_neg (by norm_num)]
      norm_num
  · refine isNearestEven_of_lt ?_
    have hhalf : 1 / 2 < ((num % den : ℕ) : ℚ) / den := by
      rw [div_lt_div_iff₀ (by norm_num) hpos, one_mul, mul_comm]
      exact_mod_cast hgt
    rw [roundHalfEven_of_gt hgt, hfraction, abs_lt]
    push_cast
    constructor <;> linarith

namespace Decimal

/-! ### Steps -/

theorem ten_zpow_pos (e : ℤ) : (0 : ℚ) < 10 ^ e := by positivity

theorem ten_zpow_eq (e : ℤ) : (10 : ℚ) ^ e = (10 ^ e.toNat : ℕ) / (10 ^ (-e).toNat : ℕ) := by
  rcases Int.le_total 0 e with he | he
  · obtain ⟨n, rfl⟩ := Int.eq_ofNat_of_zero_le he
    simp
  · obtain ⟨n, hn⟩ := Int.eq_ofNat_of_zero_le (Int.neg_nonneg_of_nonpos he)
    obtain rfl : e = -n := by omega
    simp

section Compare
variable {num den : ℕ} (hden : 0 < den) (e : ℤ)
include hden

theorem zpow_le_div_iff :
    (10 : ℚ) ^ e ≤ num / den ↔ den * 10 ^ e.toNat ≤ num * 10 ^ (-e).toNat := by
  rw [ten_zpow_eq, div_le_div_iff₀ (by exact_mod_cast ten_pow_pos _) (by exact_mod_cast hden), Nat.mul_comm den]
  exact_mod_cast Iff.rfl

theorem div_le_zpow_iff :
    (num / den : ℚ) ≤ 10 ^ e ↔ num * 10 ^ (-e).toNat ≤ den * 10 ^ e.toNat := by
  rw [ten_zpow_eq, div_le_div_iff₀ (by exact_mod_cast hden) (by exact_mod_cast ten_pow_pos _), Nat.mul_comm den]
  exact_mod_cast Iff.rfl

end Compare

/-- A power of ten that is a step at least is a whole number of steps. -/
theorem natCast_ten_pow_sub {step k : ℤ} (hk : step ≤ k) :
    ((10 ^ (k - step).toNat : ℕ) : ℚ) = 10 ^ k / 10 ^ step := by
  have hten : (10 : ℚ) ≠ 0 := by norm_num
  rw [Nat.cast_pow, Nat.cast_ofNat, ← zpow_natCast, Int.toNat_of_nonneg (by omega), zpow_sub₀ hten]

section Steps
variable (num : ℕ) {den : ℕ} (hden : 0 < den) (step : ℤ)
include hden

theorem isNearestEven_atStep : IsNearestEven (num / den / 10 ^ step : ℚ) (atStep step num den) := by
  have hnearest := isNearestEven_roundHalfEven (num * 10 ^ (-step).toNat) (Nat.mul_pos hden (ten_pow_pos step.toNat))
  rw [← atStep_eq] at hnearest
  have hden' : (den : ℚ) ≠ 0 := by exact_mod_cast hden.ne'
  have hfraction : (num / den / 10 ^ step : ℚ) =
      (num * 10 ^ (-step).toNat : ℕ) / (den * 10 ^ step.toNat : ℕ) := by
    rw [ten_zpow_eq]
    push_cast
    field_simp
  rwa [hfraction]

variable {num step}

/-- No power of ten is crossed downward. -/
theorem pow_le_atStep {k : ℤ} (hk : step ≤ k) (hx : (10 : ℚ) ^ k ≤ num / den) :
    (10 : ℚ) ^ k ≤ atStep step num den * 10 ^ step := by
  have hpower := natCast_ten_pow_sub hk
  have hle := (hpower ▸ isNearestEven_natCast _).le (isNearestEven_atStep num hden step)
    (div_le_div_of_nonneg_right hx (ten_zpow_pos step).le)
  rw [← div_le_iff₀ (ten_zpow_pos step), ← hpower]
  exact_mod_cast hle

/-- No power of ten is crossed upward. -/
theorem atStep_le_pow {k : ℤ} (hk : step ≤ k) (hx : (num / den : ℚ) ≤ 10 ^ k) :
    (atStep step num den * 10 ^ step : ℚ) ≤ 10 ^ k := by
  have hpower := natCast_ten_pow_sub hk
  have hle := (isNearestEven_atStep num hden step).le (hpower ▸ isNearestEven_natCast _)
    (div_le_div_of_nonneg_right hx (ten_zpow_pos step).le)
  rw [← le_div_iff₀ (ten_zpow_pos step), ← hpower]
  exact_mod_cast hle

end Steps

/-! ### Leading powers of ten -/

theorem exponent_le {x y : ℚ} {e f : ℤ} (hx : 10 ^ e ≤ x) (hxy : x ≤ y) (hy : y < 10 ^ (f + 1)) : e ≤ f :=
  Int.lt_add_one_iff.mp ((zpow_lt_zpow_iff_right₀ (by norm_num)).mp ((hx.trans hxy).trans_lt hy))

section Leading
variable {num den : ℕ} (hnum : 0 < num) (hden : 0 < den)
include hnum hden

theorem pow_leadingExponent_le : (10 : ℚ) ^ leadingExponent num den ≤ num / den :=
  (zpow_le_div_iff hden _).mpr (le_of_leadingExponent hnum hden)

theorem lt_pow_leadingExponent : (num / den : ℚ) < 10 ^ (leadingExponent num den + 1) := by
  have hpos : (0 : ℚ) < den := by exact_mod_cast hden
  unfold leadingExponent
  split
  · rename_i hle
    have hquotient := lt_pow_length_digits (num / den)
    rw [sub_add_cancel, zpow_natCast, div_lt_iff₀ hpos]
    exact_mod_cast (Nat.div_lt_iff_lt_mul hden).mp hquotient
  · rename_i hlt
    have hquotient := pow_length_digits_le (Nat.div_pos (by omega : num ≤ den - 1) hnum)
    have hlength := length_digits_pos ((den - 1) / num)
    have hbelow : 10 ^ ((digits ((den - 1) / num)).length - 1) * num < den := by
      have hmul := (Nat.le_div_iff_mul_le hnum).mp hquotient
      omega
    have hexponent : -((digits ((den - 1) / num)).length : ℤ) + 1 =
        -((digits ((den - 1) / num)).length - 1 : ℕ) := by omega
    rw [hexponent, zpow_neg, zpow_natCast, inv_eq_one_div, div_lt_div_iff₀ hpos (by positivity), one_mul, mul_comm]
    exact_mod_cast hbelow

end Leading

/-! ### Significant digits -/

/-- The number rounded to significant digits, ties to even. The last of them is `count - 1` places behind its first
one. -/
def IsRounded (count : ℕ) (x q : ℚ) : Prop :=
  ∃ (e : ℤ) (n : ℕ), 10 ^ e ≤ x ∧ x < 10 ^ (e + 1) ∧ IsNearestEven (x / 10 ^ (e - (count - 1))) n ∧
    q = n * 10 ^ (e - (count - 1))

/-- The number that a significand of a fixed number of digits and an exponent stand for. -/
def Scientific.toRat (count : ℕ) (s : Scientific) : ℚ := s.significand * 10 ^ (s.exponent - (count - 1))

section Digits
variable {num den count : ℕ}

section Carry
variable (hcount : 0 < count)
include hcount

theorem pow_count_mul (e : ℤ) : ((10 ^ count : ℕ) : ℚ) * 10 ^ (e - (count - 1)) = 10 ^ (e + 1) ∧
    ((10 ^ (count - 1) : ℕ) : ℚ) * 10 ^ (e + 1 - (count - 1)) = 10 ^ (e + 1) := by
  have hten : (10 : ℚ) ≠ 0 := by norm_num
  rw [Nat.cast_pow, Nat.cast_pow, Nat.cast_ofNat, ← zpow_natCast, ← zpow_natCast, ← zpow_add₀ hten,
    ← zpow_add₀ hten]
  exact ⟨congrArg _ (by omega), congrArg _ (by omega)⟩

/-- A carry does not change the number. -/
theorem toRat_atDigits : (atDigits count num den).toRat count =
    atStep (leadingExponent num den - (count - 1)) num den * 10 ^ (leadingExponent num den - (count - 1)) := by
  obtain ⟨hlong, hshort⟩ := pow_count_mul hcount (leadingExponent num den)
  rcases atDigits_cases count num den with heq | ⟨hcarry, heq⟩
  · rw [heq, Scientific.toRat]
  · rw [heq, Scientific.toRat, hcarry, hlong, hshort]

/-- Rounding by the steps of what was found finds it again. -/
theorem atStep_exponent (num : ℕ) (hden : 0 < den) :
    atStep ((atDigits count num den).exponent - (count - 1)) num den = (atDigits count num den).significand := by
  rcases atDigits_cases count num den with heq | ⟨hcarry, heq⟩
  · rw [heq]
  · -- The number is half a step below a power of ten at most, which is a twentieth of the greater step.
    have hnear := (isNearestEven_atStep num hden (leadingExponent num den - (count - 1))).near
    have hstep : leadingExponent num den + 1 - (count - 1 : ℤ) = leadingExponent num den - (count - 1) + 1 := by omega
    have hpower : ((10 ^ count : ℕ) : ℚ) = (10 ^ (count - 1) : ℕ) * 10 := by
      rw [← Nat.sub_one_add_one hcount.ne', Nat.pow_succ, Nat.cast_mul, Nat.add_sub_cancel, Nat.cast_ofNat]
    rw [hcarry, hpower] at hnear
    rw [heq]
    refine (isNearestEven_atStep _ hden _).unique (isNearestEven_of_lt ?_)
    rw [hstep, zpow_add_one₀ (by norm_num), ← div_div]
    generalize (num / den / 10 ^ (leadingExponent num den - (count - 1)) : ℚ) = x at hnear
    generalize ((10 ^ (count - 1) : ℕ) : ℚ) = n at hnear
    rw [abs_le] at hnear
    rw [abs_lt]
    constructor <;> linarith

end Carry

variable (hnum : 0 < num) (hden : 0 < den)
include hnum hden

/-- There is one rounding. -/
theorem isRounded_iff {q : ℚ} : IsRounded count (num / den) q ↔
    q = atStep (leadingExponent num den - (count - 1)) num den * 10 ^ (leadingExponent num den - (count - 1)) := by
  have hlow := pow_leadingExponent_le hnum hden
  have hhigh := lt_pow_leadingExponent hnum hden
  constructor
  · rintro ⟨e, n, helow, hehigh, hnearest, rfl⟩
    obtain rfl : e = leadingExponent num den :=
      le_antisymm (exponent_le helow le_rfl hhigh) (exponent_le hlow le_rfl hehigh)
    rw [hnearest.unique (isNearestEven_atStep _ hden _)]
  · rintro rfl
    exact ⟨_, _, hlow, hhigh, isNearestEven_atStep _ hden _, rfl⟩

variable (hcount : 0 < count)
include hcount

theorem isRounded_iff_atDigits {q : ℚ} :
    IsRounded count (num / den) q ↔ q = (atDigits count num den).toRat count := by
  rw [isRounded_iff hnum hden, toRat_atDigits hcount]

/-- The exponent is that of the rounded number. -/
theorem exponent_atDigits : (10 : ℚ) ^ (atDigits count num den).exponent ≤ (atDigits count num den).toRat count ∧
    (atDigits count num den).toRat count < 10 ^ ((atDigits count num den).exponent + 1) := by
  have hstep : leadingExponent num den - (count - 1) ≤ leadingExponent num den := by omega
  have hlow := pow_le_atStep hden hstep (pow_leadingExponent_le hnum hden)
  have hhigh := atStep_le_pow hden (hstep.trans (by omega)) (lt_pow_leadingExponent hnum hden).le
  obtain ⟨hlong, -⟩ := pow_count_mul hcount (leadingExponent num den)
  rw [toRat_atDigits hcount]
  unfold atDigits
  dsimp only
  split
  · rename_i hcarry
    rw [hcarry, hlong]
    exact ⟨le_rfl, zpow_lt_zpow_right₀ (by norm_num) (lt_add_one _)⟩
  · rename_i hnone
    refine ⟨hlow, lt_of_le_of_ne hhigh fun heq => hnone ?_⟩
    rw [← hlong] at heq
    exact_mod_cast mul_right_cancel₀ (ten_zpow_pos _).ne' heq

theorem significand_atDigits : 10 ^ (count - 1) ≤ (atDigits count num den).significand ∧
    (atDigits count num den).significand < 10 ^ count := by
  obtain ⟨hlow, hhigh⟩ := exponent_atDigits hnum hden hcount
  have hpos := ten_zpow_pos ((atDigits count num den).exponent - (count - 1))
  obtain ⟨hlong, -⟩ := pow_count_mul hcount (atDigits count num den).exponent
  obtain ⟨-, hshort⟩ := pow_count_mul hcount ((atDigits count num den).exponent - 1)
  rw [Scientific.toRat] at hlow hhigh
  rw [sub_add_cancel] at hshort
  rw [← hshort] at hlow
  rw [← hlong] at hhigh
  exact ⟨by exact_mod_cast le_of_mul_le_mul_right hlow hpos, by exact_mod_cast lt_of_mul_lt_mul_right hhigh hpos.le⟩

omit hnum in
/-- A greater number has no smaller digits. -/
theorem toRat_atDigits_mono {m : ℕ} (hm : 0 < m) (hle : m ≤ num) :
    (atDigits count m den).toRat count ≤ (atDigits count num den).toRat count := by
  have hnum := hm.trans_le hle
  have hquotient : (m / den : ℚ) ≤ num / den := div_le_div_of_nonneg_right (by exact_mod_cast hle) den.cast_nonneg
  have hexponent := exponent_le (pow_leadingExponent_le hm hden) hquotient (lt_pow_leadingExponent hnum hden)
  rw [toRat_atDigits hcount, toRat_atDigits hcount]
  rcases hexponent.eq_or_lt with heq | hlt
  · rw [heq]
    exact mul_le_mul_of_nonneg_right (by exact_mod_cast atStep_mono hle _ _) (ten_zpow_pos _).le
  · calc (atStep (leadingExponent m den - (count - 1)) m den * 10 ^ (leadingExponent m den - (count - 1)) : ℚ)
      _ ≤ 10 ^ (leadingExponent m den + 1) := atStep_le_pow hden (by omega) (lt_pow_leadingExponent hm hden).le
      _ ≤ 10 ^ leadingExponent num den := zpow_le_zpow_right₀ (by norm_num) (by omega)
      _ ≤ _ := pow_le_atStep hden (by omega) (pow_leadingExponent_le hnum hden)

end Digits
end Decimal
end ScriptCore
