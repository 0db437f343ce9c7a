import ScriptCore.Proofs.NumberEquality

/-! Loose equality of primitive values.

Loose equality converts one operand at a time and compares again. For primitive values that comes to three
rules (`EqualPrimitives`): absent values are equal to one another, texts when they have the same code units, and
any other two values when their numbers are. A number on either side is compared with the number of the other
side (`looseEqualsWithin_number_left`, `looseEqualsWithin_number_right`); a truth value gives way to its number
first, so that at most two conversions come before the answer. -/
namespace ScriptCore

open Heap HeapM

variable {h : Heap} {x y m n : Value}

/-- When primitive values are loosely equal. -/
inductive Heap.EqualPrimitives (h : Heap) (x y : Value) : Prop where
  | absent (hx : x.isNullish = true) (hy : y.isNullish = true)
  | texts {s t : StringRef} {a b : Text} (hx : x = .string s) (hy : y = .string t) (ha : h.text s = .ok a)
      (hb : h.text t = .ok b) (hunits : a.units = b.units)
  | numbers {m n : Value} (hx : x.isNullish = false) (hy : y.isNullish = false)
      (hstrings : ¬ (x.isString = true ∧ y.isString = true)) (hm : (toNumber x).runOn h = (.ok m, h))
      (hn : (toNumber y).runOn h = (.ok n, h)) (hequal : h.strictEquals m n = .ok true)

/-! ### Numbers of primitive values -/

theorem Value.exists_string (hx : x.isString = true) : ∃ s, x = string s := by
  cases x with
  | string s => exact ⟨s, rfl⟩
  | _ => cases hx

theorem runOn_toNumber_primitive (h : Heap) (hx : x.isPrimitive = true) :
    (toNumber x).runOn h = (h.primitiveToNumber x, h) := by
  cases x with
  | object _ => cases hx
  | _ => rfl

theorem exists_primitiveToNumber (hx : x.isPrimitive = true) (hu : h.Usable x) :
    ∃ m, h.primitiveToNumber x = .ok m := by
  cases x with
  | string s =>
    obtain ⟨t, ht⟩ := exists_text hu
    exact ⟨t.toNumber, by rw [primitiveToNumber, ht]; rfl⟩
  | object _ | environment _ | function _ => cases hx
  | _ => exact ⟨_, rfl⟩

theorem Heap.exists_strictEquals (hx : x.isNumeric = true) (hy : y.isNumeric = true) :
    ∃ b, h.strictEquals x y = .ok b := by
  cases hxfin : x.isFiniteNumber <;> cases hyfin : y.isFiniteNumber
  · cases x with
    | nan => exact ⟨_, strictEquals_nan (.inl rfl)⟩
    | infinity s =>
      cases y with
      | nan => exact ⟨_, strictEquals_nan (.inr rfl)⟩
      | infinity t => cases s <;> cases t <;> exact ⟨_, rfl⟩
      | int32 _ | double _ => cases hyfin
      | _ => cases hy
    | int32 _ | double _ => cases hxfin
    | _ => cases hx
  · exact ⟨_, (strictEquals_number_other hyfin hxfin).2⟩
  · exact ⟨_, (strictEquals_number_other hxfin hyfin).1⟩
  · exact ⟨_, strictEquals_finite hxfin hyfin⟩

/-! ### One operand a number -/

theorem looseEqualsWithin_number_left (fuel : Nat) (hx : x.isNumeric = true) (hy : y.isPrimitive = true)
    (hpresent : y.isNullish = false) (hn : h.primitiveToNumber y = .ok n) :
    (looseEqualsWithin (fuel + 2) x y).runOn h = (h.strictEquals x n, h) := by
  have hnumeric := isNumeric_of_primitiveToNumber hn
  have hnext := congrArg (runOn · h) (looseEqualsWithin_numeric fuel hx hnumeric)
  cases y with
  | int32 _ | double _ | nan | infinity _ =>
    obtain rfl := Except.ok.inj hn
    rw [looseEqualsWithin_numeric (fuel + 1) hx rfl, runOn_ask]
  | boolean b =>
    obtain rfl := Except.ok.inj hn
    cases x <;> first | exact hnext | cases hx
  | string s =>
    have hread : (HeapM.ask (·.primitiveToNumber (.string s)) >>= looseEqualsWithin (fuel + 1) x).runOn h =
        (h.strictEquals x n, h) := by
      rw [runOn_bind, runOn_ask, hn]
      exact hnext
    cases x <;> first | exact hread | cases hx
  | undefined | null | none => cases hpresent
  | object _ | environment _ | function _ => cases hy

theorem looseEqualsWithin_number_right (fuel : Nat) (hx : x.isPrimitive = true) (hpresent : x.isNullish = false)
    (hy : y.isNumeric = true) (hm : h.primitiveToNumber x = .ok m) :
    (looseEqualsWithin (fuel + 2) x y).runOn h = (h.strictEquals m y, h) := by
  have hnumeric := isNumeric_of_primitiveToNumber hm
  have hnext := congrArg (runOn · h) (looseEqualsWithin_numeric fuel hnumeric hy)
  cases x with
  | int32 _ | double _ | nan | infinity _ =>
    obtain rfl := Except.ok.inj hm
    rw [looseEqualsWithin_numeric (fuel + 1) rfl hy, runOn_ask]
  | boolean b =>
    obtain rfl := Except.ok.inj hm
    cases y <;> first | exact hnext | cases hy
  | string s =>
    have hread : (HeapM.ask (·.primitiveToNumber (.string s)) >>= (looseEqualsWithin (fuel + 1) · y)).runOn h =
        (h.strictEquals m y, h) := by
      rw [runOn_bind, runOn_ask, hm]
      exact hnext
    cases y <;> first | exact hread | cases hy
  | undefined | null | none => cases hpresent
  | object _ | environment _ | function _ => cases hx

/-! ### The three rules -/

theorem looseEqualsWithin_absent (fuel : Nat) (hx : x.isNullish = true) (hy : y.isNullish = true) :
    (looseEqualsWithin (fuel + 1) x y).runOn h = (.ok true, h) := by
  cases x with
  | undefined | null | none =>
    cases y with
    | undefined | null | none => rfl
    | _ => cases hy
  | _ => cases hx

/-- An absent value equals no other one. Only a truth value is converted before that is seen. -/
theorem looseEqualsWithin_half_absent (fuel : Nat) (hx : x.isPrimitive = true) (hy : y.isPrimitive = true)
    (hhalf : x.isNullish ≠ y.isNullish) : (looseEqualsWithin (fuel + 2) x y).runOn h = (.ok false, h) := by
  cases x with
  | undefined | null | none =>
    cases y with
    | undefined | null | none => exact absurd rfl hhalf
    | object _ | environment _ | function _ => cases hy
    | _ => rfl
  | object _ | environment _ | function _ => cases hx
  | _ =>
    cases y with
    | undefined | null | none => rfl
    | object _ | environment _ | function _ => cases hy
    | _ => exact absurd rfl hhalf

theorem looseEqualsWithin_texts (fuel : Nat) {s t : StringRef} {a b : Text} (ha : h.text s = .ok a)
    (hb : h.text t = .ok b) :
    (looseEqualsWithin (fuel + 1) (.string s) (.string t)).runOn h = (.ok (decide (a.units = b.units)), h) := by
  have hs : h.Resolves (.string s) := ⟨a, ha⟩
  have ht : h.Resolves (.string t) := ⟨b, hb⟩
  show (h.sameValue (.string s) (.string t), h) = _
  simp only [sameValue_eq hs ht, identity_string ha, identity_string hb, Identity.text.injEq]

/-- Values that are present and not both texts are compared by their numbers. -/
theorem looseEqualsWithin_numbers (fuel : Nat) (hx : x.isPrimitive = true) (hy : y.isPrimitive = true)
    (hxpresent : x.isNullish = false) (hypresent : y.isNullish = false)
    (hstrings : ¬ (x.isString = true ∧ y.isString = true)) (hm : h.primitiveToNumber x = .ok m)
    (hn : h.primitiveToNumber y = .ok n) :
    (looseEqualsWithin (fuel + 3) x y).runOn h = (h.strictEquals m n, h) := by
  have hleft := fun hm' => looseEqualsWithin_number_left (h := h) (x := m) fuel hm' hy hypresent hn
  have hright := fun hn' => looseEqualsWithin_number_right (h := h) (y := n) fuel hx hxpresent hn' hm
  cases x with
  | int32 _ | double _ | nan | infinity _ =>
    obtain rfl := Except.ok.inj hm
    exact looseEqualsWithin_number_left (fuel + 1) rfl hy hypresent hn
  | boolean a =>
    obtain rfl := Except.ok.inj hm
    cases y with
    | boolean b =>
      obtain rfl := Except.ok.inj hn
      cases a <;> cases b <;> rfl
    | undefined | null | none => cases hypresent
    | object _ | environment _ | function _ => cases hy
    | _ => exact hleft rfl
  | string s =>
    cases y with
    | int32 _ | double _ | nan | infinity _ =>
      obtain rfl := Except.ok.inj hn
      exact looseEqualsWithin_number_right (fuel + 1) rfl rfl rfl hm
    | boolean b =>
      obtain rfl := Except.ok.inj hn
      exact hright rfl
    | string t => exact absurd ⟨rfl, rfl⟩ hstrings
    | undefined | null | none => cases hypresent
    | object _ | environment _ | function _ => cases hy
  | undefined | null | none => cases hxpresent
  | object _ | environment _ | function _ => cases hx

/-! ### The rules apart -/

namespace Heap.EqualPrimitives

theorem isNullish_eq (heq : h.EqualPrimitives x y) : x.isNullish = y.isNullish := by
  cases heq with
  | absent hx hy => rw [hx, hy]
  | texts hx hy => rw [hx, hy]; rfl
  | numbers hx hy => rw [hx, hy]

theorem iff_texts {s t : StringRef} {a b : Text} (ha : h.text s = .ok a) (hb : h.text t = .ok b) :
    h.EqualPrimitives (.string s) (.string t) ↔ a.units = b.units := by
  constructor
  · intro heq
    cases heq with
    | absent hx hy => cases hx
    | texts hx hy ha' hb' hunits =>
      obtain rfl := Value.string.inj hx
      obtain rfl := Value.string.inj hy
      obtain rfl := Except.ok.inj (ha.symm.trans ha')
      obtain rfl := Except.ok.inj (hb.symm.trans hb')
      exact hunits
    | numbers hx hy hstrings => exact absurd ⟨rfl, rfl⟩ hstrings
  · exact .texts rfl rfl ha hb

theorem iff_numbers (hx : x.isPrimitive = true) (hy : y.isPrimitive = true) (hxpresent : x.isNullish = false)
    (hypresent : y.isNullish = false) (hstrings : ¬ (x.isString = true ∧ y.isString = true))
    (hm : h.primitiveToNumber x = .ok m) (hn : h.primitiveToNumber y = .ok n) :
    h.EqualPrimitives x y ↔ h.strictEquals m n = .ok true := by
  have hxrun := runOn_toNumber_primitive h hx
  have hyrun := runOn_toNumber_primitive h hy
  rw [hm] at hxrun
  rw [hn] at hyrun
  constructor
  · intro heq
    cases heq with
    | absent habsent => cases hxpresent.symm.trans habsent
    | texts hx' hy' =>
      rw [hx', hy'] at hstrings
      exact absurd ⟨rfl, rfl⟩ hstrings
    | numbers _ _ _ hm' hn' hequal =>
      obtain rfl := Except.ok.inj (congrArg Prod.fst (hxrun.symm.trans hm'))
      obtain rfl := Except.ok.inj (congrArg Prod.fst (hyrun.symm.trans hn'))
      exact hequal
  · exact .numbers hxpresent hypresent hstrings hxrun hyrun

end Heap.EqualPrimitives

/-- Loose equality of primitive values answers by the three rules, whatever the semantics, and leaves the heap as
it is. -/
theorem looseEquals_primitives (h : Heap) (x y : Value) (hx : x.isPrimitive = true) (hy : y.isPrimitive = true)
    (hux : h.Usable x) (huy : h.Usable y) :
    ∃ b, (looseEquals x y).runOn h = (.ok b, h) ∧ (b = true ↔ h.EqualPrimitives x y) := by
  show ∃ b, (looseEqualsWithin (h.objects.size + 1 + 3) x y).runOn h = (.ok b, h) ∧ _
  by_cases hhalf : x.isNullish = y.isNullish
  · cases hxabsent : x.isNullish with
    | true =>
      have hyabsent := hhalf.symm.trans hxabsent
      exact ⟨true, looseEqualsWithin_absent _ hxabsent hyabsent, iff_of_true rfl (.absent hxabsent hyabsent)⟩
    | false =>
      have hypresent := hhalf.symm.trans hxabsent
      by_cases hstrings : x.isString = true ∧ y.isString = true
      · obtain ⟨s, rfl⟩ := Value.exists_string hstrings.1
        obtain ⟨t, rfl⟩ := Value.exists_string hstrings.2
        obtain ⟨a, ha⟩ := exists_text hux
        obtain ⟨b, hb⟩ := exists_text huy
        refine ⟨_, looseEqualsWithin_texts _ ha hb, ?_⟩
        rw [decide_eq_true_iff, EqualPrimitives.iff_texts ha hb]
      · obtain ⟨m, hm⟩ := exists_primitiveToNumber hx hux
        obtain ⟨n, hn⟩ := exists_primitiveToNumber hy huy
        obtain ⟨b, hb⟩ := exists_strictEquals (isNumeric_of_primitiveToNumber hm) (isNumeric_of_primitiveToNumber hn)
        have hrun := looseEqualsWithin_numbers (h.objects.size + 1) hx hy hxabsent hypresent hstrings hm hn
        refine ⟨b, by rw [hrun, hb], ?_⟩
        rw [EqualPrimitives.iff_numbers hx hy hxabsent hypresent hstrings hm hn, hb, Except.ok.injEq]
  · exact ⟨false, looseEqualsWithin_half_absent _ hx hy hhalf,
      iff_of_false Bool.false_ne_true fun heq => hhalf heq.isNullish_eq⟩

/-- A heap with one string, a numeral between blanks. -/
def padded : Heap := ((Heap.new {}).allocate (Text.ofString " 1 ")).2

/-- The numeral and the truth value have one number. -/
theorem looseEquals_primitives_padded :
    padded.Usable (.string (.heap 0)) ∧ padded.Usable (.boolean true) ∧
    (looseEquals (.string (.heap 0)) (.boolean true)).runOn padded = (.ok true, padded) := by
  have hlive : padded.Usable (.string (.heap 0)) := isLive_allocate (sound_new {}) _
  obtain ⟨b, hrun, hiff⟩ := looseEquals_primitives padded (.string (.heap 0)) (.boolean true) rfl rfl hlive trivial
  have hnumber : (toNumber (.string (.heap 0))).runOn padded = (.ok (.int32 1), padded) := by decide +kernel
  have hequal : padded.EqualPrimitives (.string (.heap 0)) (.boolean true) :=
    .numbers rfl rfl (fun hstrings => nomatch hstrings.2) hnumber rfl (by decide +kernel)
  exact ⟨hlive, trivial, by rw [hrun, hiff.mpr hequal]⟩

end ScriptCore
