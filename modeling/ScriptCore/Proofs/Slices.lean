import ScriptCore.Text

/-! Slices against joins.

A slice is clamped at both ends and a join may change the width of the storage, and neither shows in the
code units: a slice holds the units from one clamped place up to the other, the two parts of a join are
its slices, a text is the join of its slices at any place, and it does not matter which of two joins is
made first. All of it rests on `units_extract`, where the clamping and the saturated end of the slice are
found to be what `drop` and `take` do at the end of a list. -/
namespace ScriptCore
namespace Text

/-- The units of a slice. A text that a word can count ends before the saturated end of any slice. -/
theorem units_extract {t : Text} (ht : t.length < 2 ^ 32) (start count : UInt32) :
    (t.extract start count).units = (t.units.drop start.toNat).take count.toNat := by
  have hfirst : t.units.drop (min start.toNat t.length) = t.units.drop start.toNat := by
    rw [List.drop_eq_drop_iff, length_units, Nat.min_assoc, Nat.min_self]
  simp only [extract, units_ofUnits]
  rw [hfirst, List.take_eq_take_iff, List.length_drop, length_units]
  omega

theorem length_extract {t : Text} (ht : t.length < 2 ^ 32) (start count : UInt32) :
    (t.extract start count).length =
      min (start.toNat + count.toNat) t.length - min start.toNat t.length := by
  rw [← length_units, units_extract ht, List.length_take, List.length_drop, length_units]
  omega

theorem unitAt?_extract {t : Text} (ht : t.length < 2 ^ 32) (start count : UInt32) (k : Nat) :
    (t.extract start count).unitAt? k =
      if min start.toNat t.length + k < min (start.toNat + count.toNat) t.length then
        t.unitAt? (min start.toNat t.length + k)
      else none := by
  rw [unitAt?_eq, units_extract ht, List.getElem?_take, List.getElem?_drop, unitAt?_eq]
  have hend : t.length ≤ start.toNat + k → t.units[start.toNat + k]? = none := fun h =>
    List.getElem?_eq_none (by rwa [length_units])
  by_cases hk : k < count.toNat
  · rw [if_pos hk]
    by_cases hlt : start.toNat + k < t.length
    · have hstart : min start.toNat t.length = start.toNat := by omega
      rw [hstart, if_pos (by omega)]
    · rw [hend (by omega), if_neg (by omega)]
  · rw [if_neg hk, if_neg (by omega)]

/-- A length that a word can hold comes back from the word. -/
theorem toNat_ofNat_length {t : Text} (ht : t.length < 2 ^ 32) :
    (UInt32.ofNat t.length).toNat = t.length :=
  UInt32.toNat_ofNat_of_lt' ht

theorem length_append (a b : Text) : (a.append b).length = a.length + b.length := by
  rw [← length_units, units_append, List.length_append, length_units, length_units]

section Join

variable {a b : Text} (hab : a.length + b.length < 2 ^ 32)
include hab

theorem sameUnits_extract_append_left :
    ((a.append b).extract 0 (UInt32.ofNat a.length)).sameUnits a = true := by
  have hlen : (a.append b).length < 2 ^ 32 := by rwa [length_append]
  rw [sameUnits_iff, units_extract hlen, toNat_ofNat_length (by omega), units_append, UInt32.toNat_zero,
    List.drop_zero, ← length_units, List.take_left]

theorem sameUnits_extract_append_right {count : UInt32} (hcount : b.length ≤ count.toNat) :
    ((a.append b).extract (UInt32.ofNat a.length) count).sameUnits b = true := by
  have hlen : (a.append b).length < 2 ^ 32 := by rwa [length_append]
  rw [sameUnits_iff, units_extract hlen, toNat_ofNat_length (by omega), units_append, ← length_units,
    List.drop_left, List.take_of_length_le (by rwa [length_units])]

end Join

/-- The slices before and from a place, joined. -/
theorem sameUnits_append_extract {t : Text} (ht : t.length < 2 ^ 32) (place : UInt32) :
    ((t.extract 0 place).append (t.extract place 0xFFFFFFFF)).sameUnits t = true := by
  have hrest : (t.units.drop place.toNat).length ≤ (0xFFFFFFFF : UInt32).toNat := by
    rw [List.length_drop, length_units, show (0xFFFFFFFF : UInt32).toNat = 2 ^ 32 - 1 from rfl]
    omega
  rw [sameUnits_iff, units_append, units_extract ht, units_extract ht, List.take_of_length_le hrest,
    UInt32.toNat_zero, List.drop_zero, List.take_append_drop]

theorem append3_eq_append_left (a b c : Text) : a.append3 b c = (a.append b).append c := by
  rw [append3, append, units_append]

theorem append3_eq_append_right (a b c : Text) : a.append3 b c = a.append (b.append c) := by
  rw [append3, append, units_append, List.append_assoc]

/-- Slicing and joining are inverse to each other, and joining is associative. -/
theorem slices_and_joins (s a b c : Text) (hs : s.length < 2 ^ 32)
    (hab : a.length + b.length < 2 ^ 32) (i n : UInt32) :
    (s.extract i n).length = min (i.toNat + n.toNat) s.length - min i.toNat s.length ∧
      (∀ k, (s.extract i n).unitAt? k =
        if min i.toNat s.length + k < min (i.toNat + n.toNat) s.length then
          s.unitAt? (min i.toNat s.length + k)
        else none) ∧
      ((a.append b).extract 0 (UInt32.ofNat a.length)).sameUnits a = true ∧
      (∀ count : UInt32, b.length ≤ count.toNat →
        ((a.append b).extract (UInt32.ofNat a.length) count).sameUnits b = true) ∧
      ((s.extract 0 i).append (s.extract i 0xFFFFFFFF)).sameUnits s = true ∧
      a.append3 b c = (a.append b).append c ∧ a.append3 b c = a.append (b.append c) :=
  ⟨length_extract hs i n, unitAt?_extract hs i n, sameUnits_extract_append_left hab,
    fun _ => sameUnits_extract_append_right hab, sameUnits_append_extract hs i,
    append3_eq_append_left a b c, append3_eq_append_right a b c⟩

/-- A wide text and two narrow ones: the slice at `2` leaves the only wide unit out and is narrow. -/
theorem slices_and_joins_wide :
    (ofUnits [0x41, 0xE9]).length + (ofUnits [0x42, 0x43]).length < 2 ^ 32 ∧
      ((ofUnits [0x41, 0xE9]).append (ofUnits [0x42, 0x43])).isNarrow = false ∧
      (((ofUnits [0x41, 0xE9]).append (ofUnits [0x42, 0x43])).extract 2 0xFFFFFFFF).isNarrow = true ∧
      (((ofUnits [0x41, 0xE9]).append (ofUnits [0x42, 0x43])).extract 2 0xFFFFFFFF).sameUnits
        (ofUnits [0x42, 0x43]) = true := by
  refine ⟨by decide, by decide, by decide, ?_⟩
  exact (slices_and_joins (ofUnits [0x41, 0xE9]) (ofUnits [0x41, 0xE9]) (ofUnits [0x42, 0x43]) empty
    (by decide) (by decide) 0 0).2.2.2.1 0xFFFFFFFF (by decide)

end Text
end ScriptCore
