import ScriptCore.Decimal.Lemmas
import ScriptCore.Double.Spacing
import ScriptCore.Proofs.NumberEquality
import ScriptCore.Settings

/-! Numbers under loaded settings.

A reader of documents gives finite numbers (`Loader.Lawful`), so a loaded epsilon is valid as soon as it is positive.
Semantics that are loaded by themselves are refused otherwise, and under valid semantics every number but `nan` is
equal to itself. Those inside of the settings of a heap are taken as they are: where they are approximate and their
epsilon is not positive, no double is equal to itself, while infinities and integers of 32 bits still are
(`strictEquals_self`).

The reader of JSON is such a reader (`Json.lawful_loader`): a number that it reads is finite, however it is
written. -/
namespace ScriptCore

open Heap

/-! ### Numbers of documents -/

namespace Double

theorem isFinite_of_not {d : Double} (hnumber : d.isNaN = false) (hbounded : d.isInfinite = false) :
    d.isFinite = true := by
  simp only [isFinite, isNaN, isInfinite, decide_eq_true_eq, decide_eq_false_iff_not] at *
  omega

/-- A quotient by one or more is as close to zero as the dividend. -/
theorem isFinite_div {a b : Double} (ha : a.isFinite = true) (hb : b.isFinite = true) (hone : one ≤ b.magnitude) :
    (a.div b).isFinite = true := by
  have hpos : 0 < b.magnitude := Nat.lt_of_lt_of_le one_pos hone
  have hle : roundUnits (a.magnitude * one) b.magnitude ≤ a.pattern :=
    roundUnits_le_of_le hpos (Nat.le_of_lt (of_decide_eq_true ha)) (Nat.mul_le_mul_left _ hone)
  rw [div_of_isFinite ha hb (magnitude_pos_iff.mp hpos), isFinite, pattern_ofRatio]
  exact decide_eq_true (Nat.lt_of_le_of_lt hle (of_decide_eq_true ha))

end Double

namespace JsonNumber

open Double

theorem isFinite_ofNat {n : Nat} (hn : n < wordLimit) : (Double.ofNat n).isFinite = true := by
  have hlimit : roundUnits (wordLimit * one) 1 < infinityPattern := by decide +kernel
  rw [Double.ofNat, isFinite, pattern_ofRatio]
  exact decide_eq_true
    (Nat.lt_of_le_of_lt (roundUnits_mono_left (Nat.mul_le_mul_right one (Nat.le_of_lt hn)) Nat.one_pos) hlimit)

section PowerOfTen
variable {e : Nat}

theorem powerOfTen_eq (e : Nat) : powerOfTen e = ofRatio false (10 ^ e * one) 1 := by
  rw [powerOfTen, ofDecimal_eq, Nat.one_mul, Int.toNat_natCast, Int.toNat_neg_natCast, Nat.pow_zero]

theorem pattern_powerOfTen_mono {l : Nat} (he : e ≤ l) : (powerOfTen e).pattern ≤ (powerOfTen l).pattern := by
  rw [powerOfTen_eq, powerOfTen_eq, pattern_ofRatio, pattern_ofRatio]
  exact roundUnits_mono_left (Nat.mul_le_mul_right one (Nat.pow_le_pow_right (by decide) he)) Nat.one_pos

theorem isFinite_powerOfTen (he : e ≤ 308) : (powerOfTen e).isFinite = true := by
  have hlimit : (powerOfTen 308).isFinite = true := by decide +kernel
  exact decide_eq_true (Nat.lt_of_le_of_lt (pattern_powerOfTen_mono he) (of_decide_eq_true hlimit))

theorem one_le_powerOfTen (e : Nat) : one ≤ (powerOfTen e).magnitude := by
  obtain ⟨p, hp, hunits⟩ := exists_unitsOf_eq (by decide : 1 < 2 ^ 53)
  rw [Nat.one_mul] at hunits
  have hle : p ≤ roundUnits (10 ^ e * one) 1 := by
    refine le_roundUnits_of_le Nat.one_pos (Nat.le_of_lt hp) ?_
    rw [hunits, Nat.mul_one]
    exact Nat.le_mul_of_pos_left one (Decimal.ten_pow_pos e)
  have hunits_le := unitsOf_le hle
  rwa [hunits, ← pattern_ofRatio false, ← powerOfTen_eq] at hunits_le

end PowerOfTen

theorem appendDigits_lt (ds : List Char) {n : Nat} (hn : n < wordLimit) : (appendDigits n ds).1 < wordLimit := by
  induction ds generalizing n with
  | nil => exact hn
  | cons d ds ih =>
    rw [appendDigits]
    split
    · exact ih ‹_›
    · exact hn

theorem significand_lt (n : JsonNumber) : n.significand.1 < wordLimit :=
  appendDigits_lt _ (appendDigits_lt _ (by decide))

theorem isFinite_scaleDown (fuel e : Nat) {d : Double} (hd : d.isFinite = true) :
    (scaleDown fuel d e).isFinite = true := by
  induction fuel generalizing d e with
  | zero => exact hd
  | succ fuel ih =>
    rw [scaleDown]
    split
    · exact isFinite_div hd (isFinite_powerOfTen ‹_›) (one_le_powerOfTen e)
    · split
      · exact hd
      · exact ih _ (isFinite_div hd (isFinite_powerOfTen (Nat.le_refl 308)) (one_le_powerOfTen 308))

/-- A product beyond the range is refused. -/
theorem isFinite_of_scale? {significand : Nat} {e : Int} {d : Double} (hn : significand < wordLimit)
    (hd : scale? significand e = some d) : d.isFinite = true := by
  have hfinite := isFinite_ofNat hn
  unfold scale? at hd
  split at hd
  · rename_i e
    dsimp only at hd
    split at hd
    · rename_i he
      obtain ⟨hbounded, rfl⟩ := Option.ite_none_left_eq_some.mp hd |>.imp_right Option.some.inj
      refine isFinite_of_not ?_ (Bool.eq_false_iff.mpr hbounded)
      rw [mul_of_isFinite hfinite (isFinite_powerOfTen he), isNaN_ofRatio]
    · obtain ⟨-, rfl⟩ := Option.ite_none_right_eq_some.mp hd |>.imp_right Option.some.inj
      exact hfinite
  · obtain rfl := Option.some.inj hd
    exact isFinite_scaleDown _ _ hfinite

theorem isFinite_of_magnitude? {n : JsonNumber} {d : Double} (hd : n.magnitude? = some d) : d.isFinite = true := by
  unfold magnitude? at hd
  dsimp only at hd
  split at hd
  · exact isFinite_of_scale? n.significand_lt hd
  · split at hd
    · exact isFinite_of_scale? n.significand_lt hd
    · split at hd
      · cases hd
      · obtain rfl := Option.some.inj hd
        decide

/-- What a document gives as a number is finite. -/
theorem isFinite_of_toDouble? {n : JsonNumber} {d : Double} (hd : n.toDouble? = some d) : d.isFinite = true := by
  obtain ⟨m, hm, rfl⟩ := Option.map_eq_some_iff.mp hd
  have hfinite := isFinite_of_magnitude? hm
  split
  · rwa [isFinite_neg]
  · exact hfinite

end JsonNumber

/-! ### Documents of settings -/

namespace Json

/-- A member has what was read for it, or the default. -/
theorem of_fieldOr {α : Type} {P : α → Prop} {default value : α} {read? : Json → Option α} {member : Option Json}
    (hvalue : fieldOr default read? member = some value) (hdefault : P default)
    (hread : ∀ document read, read? document = some read → P read) : P value := by
  cases member with
  | none => exact Option.some.inj hvalue ▸ hdefault
  | some document => exact hread document value hvalue

theorem isFinite_of_toDouble? {document : Json} {d : Double} (hd : document.toDouble? = some d) :
    d.isFinite = true := by
  cases document with
  | number n => exact n.isFinite_of_toDouble? hd
  | _ => cases hd

/-- A loaded epsilon is a finite number. -/
theorem isFinite_epsilon {document : Json} {s : Semantics} (hs : document.toSemantics? = some s) :
    s.epsilon.isFinite = true := by
  unfold toSemantics? at hs
  simp only [Option.bind_eq_bind, Option.pure_def, Option.bind_eq_some_iff] at hs
  obtain ⟨members, -, hs⟩ := hs
  split at hs
  · simp only [Option.bind_eq_some_iff] at hs
    obtain ⟨_, -, epsilon, hepsilon, hs⟩ := hs
    obtain rfl := Option.some.inj hs
    exact of_fieldOr (P := fun d : Double => d.isFinite = true) hepsilon (by decide) fun _ _ =>
      isFinite_of_toDouble?
  · cases hs

theorem isFinite_epsilon_of_heapSettings {document : Json} {settings : HeapSettings}
    (hs : document.toHeapSettings? = some settings) : settings.semantics.epsilon.isFinite = true := by
  unfold toHeapSettings? at hs
  simp only [Option.bind_eq_bind, Option.pure_def, Option.bind_eq_some_iff] at hs
  obtain ⟨members, -, hs⟩ := hs
  split at hs
  · simp only [Option.bind_eq_some_iff] at hs
    obtain ⟨_, -, _, -, semantics, hsemantics, hs⟩ := hs
    obtain rfl := Option.some.inj hs
    exact of_fieldOr (P := fun s : Semantics => s.epsilon.isFinite = true) hsemantics (by decide) fun _ _ =>
      isFinite_epsilon
  · cases hs

theorem lawful_loader : loader.Lawful where
  isFinite_epsilon text settings hs := by
    obtain ⟨document, -, hs⟩ := Option.bind_eq_some_iff.mp hs
    exact isFinite_epsilon_of_heapSettings hs

end Json

/-! ### Numbers and themselves -/

/-- A number is at distance zero from itself, which is below a positive epsilon only. -/
theorem Semantics.numbersEqual_self_iff {s : Semantics} (hs : s.epsilon.isFinite = true) {d : Double}
    (hd : d.isFinite = true) :
    s.numbersEqual d d = true ↔ (s.approximate = true → s.isValid = true) := by
  constructor
  · intro hequal happrox
    have hzero : (Double.zero false).isNaN = false ∧ (Double.zero false).key = 0 := by decide
    simp only [numbersEqual, happrox, if_true, Double.numLt, Double.key_abs, Bool.and_eq_true,
      decide_eq_true_eq] at hequal
    simp only [isValid, hs, Double.numLe, Double.isNaN_of_isFinite hs, hzero]
    simp only [Bool.true_and, Bool.not_false, Bool.not_eq_true', decide_eq_false_iff_not]
    omega
  · intro hvalid
    by_cases happrox : s.approximate = true
    · exact s.numbersEqual_self (hvalid happrox) hd
    · rw [numbersEqual, if_neg happrox, Double.numEq_of_isFinite hd hd, beq_self_eq_true]

/-- Infinities and integers of 32 bits are equal to themselves whatever the semantics. -/
theorem Heap.strictEquals_self {h : Heap} {v : Value} (hepsilon : h.semantics.epsilon.isFinite = true)
    (hv : v.isNumeric = true) (hnan : v ≠ .nan) :
    h.strictEquals v v = .ok (decide (v.type = .double → h.semantics.approximate = true →
      h.semantics.isValid = true)) := by
  cases v with
  | nan => exact absurd rfl hnan
  | infinity sign =>
    rw [strictEquals_other rfl rfl (by simp) (by simp [AbsentPair]), sameValue_self]
    refine (congrArg Except.ok (decide_eq_true ?_)).symm
    exact fun htype => nomatch htype
  | int32 n =>
    rw [strictEquals_finite rfl rfl, if_pos ⟨rfl, rfl⟩, decide_eq_true rfl]
    refine (congrArg Except.ok (decide_eq_true ?_)).symm
    exact fun htype => nomatch htype
  | double d =>
    have htype : (Value.double d).type = .double := rfl
    rw [strictEquals_finite rfl rfl, if_neg fun hint => nomatch hint.1]
    refine congrArg Except.ok (Bool.eq_iff_iff.mpr ?_)
    simp only [htype, forall_const, decide_eq_true_eq]
    exact Semantics.numbersEqual_self_iff hepsilon d.isFinite
  | _ => cases hv

theorem Semantics.isValid_of_load {loader : Loader} {text : String} {s : Semantics}
    (hs : Semantics.load loader text = .ok s) : s.isValid = true := by
  unfold load at hs
  split at hs
  · unfold check at hs
    split at hs
    · obtain rfl := Except.ok.inj hs
      assumption
    · cases hs
  · cases hs

/-- Under semantics that are loaded by themselves a number other than `nan` is equal to itself. Under those of a
loaded heap it is, unless it is a double and they compare it with an epsilon that is not valid. -/
theorem loaded_reflexive (loader : Loader) (hloader : loader.Lawful) (h : Heap) {v : Value} (hv : v.isNumeric = true)
    (hnan : v ≠ .nan) :
    (∀ text, Semantics.load loader text = .ok h.semantics → h.strictEquals v v = .ok true) ∧
    (∀ text settings, loader.heapSettings? text = some settings → h.semantics = settings.semantics →
      h.strictEquals v v = .ok (decide (v.type = .double →
        settings.semantics.approximate = true → settings.semantics.isValid = true))) := by
  constructor
  · intro text hs
    have hvalid := Semantics.isValid_of_load hs
    have hepsilon : h.semantics.epsilon.isFinite = true := (Bool.and_eq_true_iff.mp hvalid).1
    rw [strictEquals_self hepsilon hv hnan]
    exact congrArg Except.ok (decide_eq_true fun _ _ => hvalid)
  · intro text settings hs hsemantics
    rw [← hsemantics]
    exact strictEquals_self (hsemantics ▸ hloader.isFinite_epsilon text settings hs) hv hnan

/-- Half as the epsilon, for semantics by themselves and for a heap. -/
theorem loaded_reflexive_half :
    let one : Value := .double ⟨⟨0x3ff0000000000000⟩, by decide⟩
    let settings : HeapSettings := { semantics := { epsilon := ⟨0x3fe0000000000000⟩ } }
    (one.isNumeric = true ∧ one ≠ .nan) ∧
    (Semantics.load Json.loader "\x7b\"number_equality_epsilon\":0.5\x7d" = .ok settings.semantics ∧
      Json.loader.heapSettings? "\x7b\"semantics\":\x7b\"number_equality_epsilon\":5e-1\x7d\x7d" = some settings) ∧
    (Heap.new settings).strictEquals one one = .ok true := by
  intro one settings
  have hloaded : Semantics.load Json.loader "\x7b\"number_equality_epsilon\":0.5\x7d" = .ok settings.semantics := by
    decide +kernel
  have hone : one.isNumeric = true ∧ one ≠ .nan := ⟨rfl, nofun⟩
  have hreflexive := loaded_reflexive Json.loader Json.lawful_loader (Heap.new settings) hone.1 hone.2
  exact ⟨hone, ⟨hloaded, by decide +kernel⟩, hreflexive.1 _ hloaded⟩

/-- Nothing refuses a negative epsilon inside of the settings of a heap, where no double is equal to itself. By
themselves the same semantics are refused. -/
theorem unchecked_epsilon_loaded :
    let settings : HeapSettings := { semantics := { epsilon := ⟨0xbff0000000000000⟩ } }
    let one : Value := .double ⟨⟨0x3ff0000000000000⟩, by decide⟩
    Json.loader.heapSettings? "\x7b\"semantics\":\x7b\"number_equality_epsilon\":-1\x7d\x7d" = some settings ∧
      Semantics.load Json.loader "\x7b\"number_equality_epsilon\":-1\x7d" = .error (.invalid settings.semantics) ∧
      (Heap.new settings).strictEquals one one = .ok false := by
  decide +kernel

end ScriptCore
