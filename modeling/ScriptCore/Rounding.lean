import ScriptCore.Power

/-! The integer nearest to a fraction.

A fraction halfway between two integers goes to the even one. `roundHalfEven_mul` says that whole
numbers stay as they are, `roundHalfEven_scale` that only the value of the fraction counts. Rounding keeps
the order of fractions (`roundHalfEven_mono`), takes away at most half (`le_two_mul_roundHalfEven`) and adds at
most half (`two_mul_roundHalfEven_le`). -/
namespace ScriptCore

/-- The integer nearest to `num / den`; halfway goes to the even neighbour. -/
def roundHalfEven (num den : Nat) : Nat :=
  let floor := num / den
  let rest := num % den
  if 2 * rest < den then floor
  else if den < 2 * rest then floor + 1
  else if floor % 2 = 0 then floor
  else floor + 1

theorem roundHalfEven_mul (k den : Nat) (h : 0 < den) : roundHalfEven (k * den) den = k := by
  simp [roundHalfEven, Nat.mul_div_cancel _ h, h]

theorem roundHalfEven_one (num : Nat) : roundHalfEven num 1 = num := by
  simp [roundHalfEven, Nat.mod_one]

theorem roundHalfEven_scale (num den c : Nat) (h : 0 < c) :
    roundHalfEven (num * c) (den * c) = roundHalfEven num den := by
  have hless : 2 * (num % den * c) < den * c ↔ 2 * (num % den) < den := by
    rw [← Nat.mul_assoc]
    exact Nat.mul_lt_mul_right h
  have hmore : den * c < 2 * (num % den * c) ↔ den < 2 * (num % den) := by
    rw [← Nat.mul_assoc]
    exact Nat.mul_lt_mul_right h
  simp only [roundHalfEven, Nat.mul_div_mul_right _ _ h, Nat.mul_mod_mul_right, hless, hmore]

section Sides
variable {num den : Nat}

theorem roundHalfEven_of_lt (h : 2 * (num % den) < den) : roundHalfEven num den = num / den := if_pos h

theorem roundHalfEven_of_gt (h : den < 2 * (num % den)) : roundHalfEven num den = num / den + 1 := by
  rw [roundHalfEven, if_neg (by omega), if_pos h]

theorem roundHalfEven_of_eq (h : 2 * (num % den) = den) :
    roundHalfEven num den = if num / den % 2 = 0 then num / den else num / den + 1 := by
  rw [roundHalfEven, if_neg (by omega), if_neg (by omega)]

end Sides

theorem roundHalfEven_cases (num den : Nat) :
    roundHalfEven num den = num / den ∧ 2 * (num % den) ≤ den ∨
      roundHalfEven num den = num / den + 1 ∧ den ≤ 2 * (num % den) := by
  simp only [roundHalfEven]
  split
  · exact .inl ⟨rfl, by omega⟩
  · split
    · exact .inr ⟨rfl, by omega⟩
    · split
      · exact .inl ⟨rfl, by omega⟩
      · exact .inr ⟨rfl, by omega⟩

theorem roundHalfEven_mono {a b : Nat} (h : a ≤ b) (den : Nat) :
    roundHalfEven a den ≤ roundHalfEven b den := by
  have hfloor : a / den ≤ b / den := Nat.div_le_div_right h
  rcases roundHalfEven_cases a den with ⟨hra, -⟩ | ⟨hra, hup⟩
  · rcases roundHalfEven_cases b den with ⟨hrb, -⟩ | ⟨hrb, -⟩ <;> omega
  · rcases roundHalfEven_cases b den with ⟨hrb, hdown⟩ | ⟨hrb, -⟩
    · rcases Nat.lt_or_eq_of_le hfloor with hlt | heq
      · omega
      · -- Both halfway above the same integer, so they are the same fraction.
        have ha := Nat.div_add_mod' a den
        have hb := Nat.div_add_mod' b den
        rw [heq] at ha
        obtain rfl : a = b := by omega
        exact Nat.le_refl _
    · omega

theorem le_roundHalfEven {k num den : Nat} (hden : 0 < den) (h : k * den ≤ num) : k ≤ roundHalfEven num den := by
  rw [← roundHalfEven_mul k den hden]
  exact roundHalfEven_mono h den

theorem roundHalfEven_le {k num den : Nat} (hden : 0 < den) (h : num ≤ k * den) : roundHalfEven num den ≤ k := by
  rw [← roundHalfEven_mul k den hden]
  exact roundHalfEven_mono h den

theorem le_two_mul_roundHalfEven (num : Nat) {den : Nat} (hden : 0 < den) :
    2 * num ≤ 2 * (roundHalfEven num den * den) + den := by
  have hsplit := Nat.div_add_mod' num den
  rcases roundHalfEven_cases num den with ⟨hfloor, hrest⟩ | ⟨hceil, -⟩
  · rw [hfloor]
    omega
  · have hlt := Nat.mod_lt num hden
    rw [hceil, Nat.add_mul]
    omega

theorem two_mul_roundHalfEven_le (num den : Nat) : 2 * (roundHalfEven num den * den) ≤ 2 * num + den := by
  have hsplit := Nat.div_add_mod' num den
  rcases roundHalfEven_cases num den with ⟨hfloor, -⟩ | ⟨hceil, hrest⟩
  · rw [hfloor]
    omega
  · rw [hceil, Nat.add_mul]
    omega

end ScriptCore
