import ScriptCore.Proofs.Representations
import ScriptCore.Proofs.StaleStrings

/-! The order of numbers and of strings.

The four operators ask for one relation, which is told by a rank: the key of a number, the code units of a
string. Equality asks whether the ranks are one (`Heap.Ranks`). Ranks are linearly ordered, so that the
operators and `===` answer as a total order does (`Heap.Ranks.total_order`); only `nan` has no rank, and with
it each of them says no. -/
namespace ScriptCore

open Heap HeapM

variable {h : Heap} {x y : Value}

/-! ### Answers to a pair -/

/-- What `<`, `>`, `<=`, `>=` and `===` say about two values. -/
structure Verdict where
  lt : Bool
  gt : Bool
  le : Bool
  ge : Bool
  eq : Bool
deriving DecidableEq

namespace Verdict

/-- Where there is no order, nothing is less, greater or equal. -/
def incomparable : Verdict := ⟨false, false, false, false, false⟩

/-- The verdict on two ranks. -/
def ofRanks {ρ : Type} [LT ρ] [DecidableLT ρ] [DecidableEq ρ] (a b : ρ) : Verdict :=
  ⟨decide (a < b), decide (b < a), !decide (b < a), !decide (a < b), decide (a = b)⟩

/-- One of the three cases of an order, with the other two operators true as they must be. -/
structure IsOrder (v : Verdict) : Prop where
  exactly_one : (v.lt = true ∧ v.eq = false ∧ v.gt = false) ∨ (v.lt = false ∧ v.eq = true ∧ v.gt = false) ∨
    (v.lt = false ∧ v.eq = false ∧ v.gt = true)
  le_eq : v.le = (v.lt || v.eq)
  ge_eq : v.ge = (v.gt || v.eq)

/-- Ranks of a linear order give one of the three cases. -/
theorem isOrder_ofRanks {ρ : Type} [LT ρ] [LE ρ] [DecidableLT ρ] [DecidableEq ρ] [Std.IsLinearOrder ρ]
    [Std.LawfulOrderLT ρ] (a b : ρ) : (ofRanks a b).IsOrder := by
  have hasymm : a < b → ¬ b < a := fun hab hba => Std.lt_irrefl (Std.lt_trans hab hba)
  obtain hlt | rfl | hgt := Std.lt_trichotomy a b
  · have hne : a ≠ b := fun heq => Std.lt_irrefl (heq ▸ hlt)
    constructor <;> simp [ofRanks, hlt, hasymm hlt, hne]
  · constructor <;> simp [ofRanks, Std.lt_irrefl]
  · have hlt : ¬ a < b := fun hlt => hasymm hlt hgt
    have hne : a ≠ b := fun heq => Std.lt_irrefl (heq ▸ hgt)
    constructor <;> simp [ofRanks, hgt, hlt, hne]

end Verdict

/-- The operators give this verdict and leave the heap as it is. -/
structure Heap.Judges (h : Heap) (x y : Value) (v : Verdict) : Prop where
  lt : (lessThan x y).runOn h = (.ok v.lt, h)
  gt : (greaterThan x y).runOn h = (.ok v.gt, h)
  le : (lessEqual x y).runOn h = (.ok v.le, h)
  ge : (greaterEqual x y).runOn h = (.ok v.ge, h)
  eq : h.strictEquals x y = .ok v.eq

/-- Two operators ask whether `x` is less than `y`, and two whether `y` is less than `x`. -/
theorem Heap.judges_of_relate {r s : Relation} {eq : Bool} (hr : (relate x y true).runOn h = (.ok r, h))
    (hs : (relate y x false).runOn h = (.ok s, h)) (heq : h.strictEquals x y = .ok eq) :
    h.Judges x y ⟨r == .less, s == .less, s == .notLess, r == .notLess, eq⟩ where
  lt := by simp only [lessThan, runOn_bind, hr, runOn_pure]
  gt := by simp only [greaterThan, runOn_bind, hs, runOn_pure]
  le := by simp only [lessEqual, runOn_bind, hs, runOn_pure]
  ge := by simp only [greaterEqual, runOn_bind, hr, runOn_pure]
  eq := heq

/-- Two relations that follow from ranks give the verdict on the ranks. -/
theorem Heap.judges_ofRanks {ρ : Type} [LT ρ] [DecidableLT ρ] [DecidableEq ρ] {a b : ρ}
    (hr : (relate x y true).runOn h = (.ok (.ofBool (decide (a < b))), h))
    (hs : (relate y x false).runOn h = (.ok (.ofBool (decide (b < a))), h))
    (heq : h.strictEquals x y = .ok (decide (a = b))) : h.Judges x y (.ofRanks a b) := by
  have hless : ∀ c : Bool, (Relation.ofBool c == .less) = c ∧ (Relation.ofBool c == .notLess) = !c := by decide
  have hjudges := judges_of_relate hr hs heq
  rwa [(hless _).1, (hless _).1, (hless _).2, (hless _).2] at hjudges

/-! ### Numbers -/

namespace Double

theorem numLt_of_isNaN {a b : Double} (ha : a.isNaN = false) (hb : b.isNaN = false) :
    a.numLt b = decide (a.key < b.key) := by
  simp [numLt, ha, hb]

theorem numEq_of_isNaN {a b : Double} (ha : a.isNaN = false) (hb : b.isNaN = false) :
    a.numEq b = decide (a.key = b.key) := by
  rw [numEq, ha, hb]
  exact Bool.beq_eq_decide_eq ..

/-- Doubles with one key have one pattern. -/
theorem pattern_eq_of_key_eq {a b : Double} (hkey : a.key = b.key) : a.pattern = b.pattern := by
  unfold key at hkey
  split at hkey <;> split at hkey <;> omega

end Double

/-- Integers of 32 bits are related as their doubles are. -/
theorem relate_numeric (hx : x.isNumeric = true) (hy : y.isNumeric = true) (leftFirst : Bool) :
    relate x y leftFirst = pure (Relation.ofNumbers x y) := by
  by_cases hints : x.type = .int32 ∧ y.type = .int32
  · obtain ⟨m, rfl⟩ := Value.exists_int32 hints.1
    obtain ⟨n, rfl⟩ := Value.exists_int32 hints.2
    have hm := natAbs_toInt_lt m
    have hn := natAbs_toInt_lt n
    have hlt : (Double.ofInt m.toInt).numLt (Double.ofInt n.toInt) = decide (m < n) := by
      rw [Double.numLt_of_isNaN (Double.isNaN_of_isFinite (Double.isFinite_ofInt hm))
        (Double.isNaN_of_isFinite (Double.isFinite_ofInt hn))]
      exact decide_eq_decide.mpr ((Double.key_ofInt_lt hm hn).trans Int32.lt_iff_toInt_lt.symm)
    rw [Relation.ofNumbers, Relation.ofDoubles, Value.isNaN_toDouble rfl, Value.isNaN_toDouble rfl,
      Value.toDouble_int32, Value.toDouble_int32, hlt]
    rfl
  · have hnumeric : (x.isNumeric && y.isNumeric) = true := by rw [hx, hy]; rfl
    unfold relate
    split
    · exact absurd ⟨rfl, rfl⟩ hints
    · exact if_pos hnumeric

/-- Under semantics that agree with the numbers, numbers are equal when their doubles are. -/
theorem strictEquals_numeric (hsem : h.semantics.IsFaithful) (hx : x.isNumeric = true) (hy : y.isNumeric = true) :
    h.strictEquals x y = .ok (x.toDouble.numEq y.toDouble) := by
  by_cases hnan : x = .nan ∨ y = .nan
  · rw [strictEquals_nan hnan, Double.numEq, Value.isNaN_toDouble hx, Value.isNaN_toDouble hy]
    rcases hnan with rfl | rfl <;> simp
  have hnumber : x.toDouble.isNaN = false ∧ y.toDouble.isNaN = false := by
    simpa [Value.isNaN_toDouble hx, Value.isNaN_toDouble hy] using hnan
  -- A finite number and an infinity have different patterns.
  have hunequal : x.isFiniteNumber ≠ y.isFiniteNumber → x.toDouble.numEq y.toDouble = false := by
    intro hne
    rw [Double.numEq_of_isNaN hnumber.1 hnumber.2, decide_eq_false_iff_not]
    intro hkey
    rw [← Value.isFinite_toDouble_eq hx, ← Value.isFinite_toDouble_eq hy, Double.isFinite, Double.isFinite,
      Double.pattern_eq_of_key_eq hkey] at hne
    exact hne rfl
  cases hxfin : x.isFiniteNumber <;> cases hyfin : y.isFiniteNumber
  · cases x with
    | infinity s =>
      cases y with
      | infinity t => cases s <;> cases t <;> rfl
      | nan => exact absurd (.inr rfl) hnan
      | int32 _ | double _ => cases hyfin
      | _ => cases hy
    | nan => exact absurd (.inl rfl) hnan
    | int32 _ | double _ => cases hxfin
    | _ => cases hx
  · rw [(strictEquals_number_other hyfin hxfin).2, hunequal (by simp [hxfin, hyfin])]
  · rw [(strictEquals_number_other hxfin hyfin).1, hunequal (by simp [hxfin, hyfin])]
  · exact strictEquals_number hsem hxfin hyfin

/-! ### Strings -/

namespace Text

theorem compare_eq_lt (t u : Text) : (compare t u == .lt) = decide (t.units < u.units) := by
  rw [Bool.eq_iff_iff, beq_iff_eq, decide_eq_true_iff, compare, compareUnits_eq, compareOfLessAndEq_eq_lt]

end Text

section Strings
variable {a b : StringRef} {t u : Text}

theorem relate_strings (ha : h.text a = .ok t) (hb : h.text b = .ok u) (leftFirst : Bool) :
    (relate (.string a) (.string b) leftFirst).runOn h =
      (.ok (.ofBool (decide (t.units < u.units))), h) := by
  rw [relate_string_left a Value.noConfusion, ← Text.compare_eq_lt]
  show (h.comparePrimitives (.string a) (.string b), h) = _
  rw [comparePrimitives, ha, hb]
  rfl

theorem strictEquals_strings (ha : h.text a = .ok t) (hb : h.text b = .ok u) :
    h.strictEquals (.string a) (.string b) = .ok (decide (t.units = u.units)) := by
  have hidentity : h.identity (.string a) = h.identity (.string b) ↔ t.units = u.units := by
    rw [identity_string ha, identity_string hb, Identity.text.injEq]
  have hnan : ¬ (Value.string a = .nan ∨ Value.string b = .nan) := by simp
  have habsent : ¬ AbsentPair (.string a) (.string b) := by simp [AbsentPair]
  rw [strictEquals_other rfl rfl hnan habsent, sameValue_eq (x := .string a) (y := .string b) ⟨t, ha⟩ ⟨u, hb⟩,
    decide_eq_decide.mpr hidentity]

theorem judges_strings (ha : h.text a = .ok t) (hb : h.text b = .ok u) :
    h.Judges (.string a) (.string b) (.ofRanks t.units u.units) :=
  judges_ofRanks (relate_strings ha hb true) (relate_strings hb ha false) (strictEquals_strings ha hb)

/-- Less is less by code units. -/
theorem Heap.Judges.lt_iff_units {v : Verdict} (hjudges : h.Judges (.string a) (.string b) v)
    (ha : h.text a = .ok t) (hb : h.text b = .ok u) : v.lt = true ↔ t.units < u.units := by
  have hlt := Except.ok.inj (congrArg Prod.fst (hjudges.lt.symm.trans (judges_strings ha hb).lt))
  rw [hlt, Verdict.ofRanks, decide_eq_true_iff]

end Strings

/-! ### Ranks -/

/-- The code units of a string, none for what is no live string. -/
def Heap.unitsOf (h : Heap) : Value → List UInt16
  | .string s => ((h.text s).toOption.map Text.units).getD []
  | _ => []

theorem Heap.unitsOf_string {s : StringRef} {t : Text} (ht : h.text s = .ok t) :
    h.unitsOf (.string s) = t.units := by
  rw [unitsOf, ht]
  rfl

/-- The values of a class are in the order of their ranks, but for `nan`, which has none. -/
structure Heap.Ranks {ρ : Type} [LT ρ] [DecidableLT ρ] [DecidableEq ρ] (h : Heap) (member : Value → Prop)
    (rank : Value → ρ) : Prop where
  judges_nan : ∀ {x y : Value}, member x → member y → x = .nan ∨ y = .nan → h.Judges x y .incomparable
  judges : ∀ {x y : Value}, member x → member y → ¬ (x = .nan ∨ y = .nan) →
    h.Judges x y (.ofRanks (rank x) (rank y))

theorem Heap.ranks_numbers (hsem : h.semantics.IsFaithful) :
    h.Ranks (fun v => v.isNumeric = true) (fun v => v.toDouble.key) where
  judges_nan {x y} hx hy hnan := by
    have hrelation : Relation.ofNumbers x y = .incomparable ∧ Relation.ofNumbers y x = .incomparable := by
      simp only [Relation.ofNumbers, Relation.ofDoubles, Value.isNaN_toDouble hx, Value.isNaN_toDouble hy]
      rcases hnan with rfl | rfl <;> simp
    refine judges_of_relate (r := .incomparable) (s := .incomparable) ?_ ?_ (strictEquals_nan hnan)
    · rw [relate_numeric hx hy, hrelation.1, runOn_pure]
    · rw [relate_numeric hy hx, hrelation.2, runOn_pure]
  judges {x y} hx hy hnan := by
    have hnumber : x.toDouble.isNaN = false ∧ y.toDouble.isNaN = false := by
      simpa [Value.isNaN_toDouble hx, Value.isNaN_toDouble hy] using hnan
    have hrelation : ∀ {a b : Double}, a.isNaN = false → b.isNaN = false →
        Relation.ofDoubles a b = .ofBool (decide (a.key < b.key)) := by
      intro a b ha hb
      rw [Relation.ofDoubles, ha, hb, Double.numLt_of_isNaN ha hb]
      rfl
    refine judges_ofRanks ?_ ?_ ?_
    · rw [relate_numeric hx hy, Relation.ofNumbers, hrelation hnumber.1 hnumber.2, runOn_pure]
    · rw [relate_numeric hy hx, Relation.ofNumbers, hrelation hnumber.2 hnumber.1, runOn_pure]
    · rw [strictEquals_numeric hsem hx hy, Double.numEq_of_isNaN hnumber.1 hnumber.2]

/-- A live string, of the table or of the heap. -/
def Heap.IsLiveString (h : Heap) (v : Value) : Prop := ∃ s, v = .string s ∧ h.isLive s = true

theorem Heap.ranks_strings (h : Heap) : h.Ranks h.IsLiveString h.unitsOf where
  judges_nan {x y} hx hy hnan := by
    obtain ⟨a, rfl, -⟩ := hx
    obtain ⟨b, rfl, -⟩ := hy
    simp at hnan
  judges {x y} hx hy _ := by
    obtain ⟨a, rfl, hlive⟩ := hx
    obtain ⟨b, rfl, hlive'⟩ := hy
    obtain ⟨t, ht⟩ := exists_text hlive
    obtain ⟨u, hu⟩ := exists_text hlive'
    rw [unitsOf_string ht, unitsOf_string hu]
    exact judges_strings ht hu

section Ranks
variable {ρ : Type} [LT ρ] [DecidableLT ρ] [DecidableEq ρ] {member : Value → Prop} {rank : Value → ρ} {z : Value}

/-- Less is less by rank. -/
theorem Heap.Ranks.lessThan_iff (hranks : h.Ranks member rank) (hx : member x) (hy : member y) :
    (lessThan x y).runOn h = (.ok true, h) ↔ ¬ (x = .nan ∨ y = .nan) ∧ rank x < rank y := by
  by_cases hnan : x = .nan ∨ y = .nan
  · rw [(hranks.judges_nan hx hy hnan).lt]
    exact iff_of_false nofun fun hand => hand.1 hnan
  · rw [(hranks.judges hx hy hnan).lt]
    simp [Verdict.ofRanks, hnan]

theorem Heap.Ranks.greaterThan_eq (hranks : h.Ranks member rank) (hx : member x) (hy : member y) :
    (greaterThan x y).runOn h = (lessThan y x).runOn h := by
  by_cases hnan : x = .nan ∨ y = .nan
  · rw [(hranks.judges_nan hx hy hnan).gt, (hranks.judges_nan hy hx hnan.symm).lt]
    rfl
  · rw [(hranks.judges hx hy hnan).gt, (hranks.judges hy hx fun hor => hnan hor.symm).lt]
    rfl

variable [LE ρ] [Std.IsLinearOrder ρ] [Std.LawfulOrderLT ρ]

theorem Heap.Ranks.lessThan_trans (hranks : h.Ranks member rank) (hx : member x) (hy : member y) (hz : member z)
    (hlt : (lessThan x y).runOn h = (.ok true, h)) (hlt' : (lessThan y z).runOn h = (.ok true, h)) :
    (lessThan x z).runOn h = (.ok true, h) := by
  obtain ⟨hxy, hlt⟩ := (hranks.lessThan_iff hx hy).mp hlt
  obtain ⟨hyz, hlt'⟩ := (hranks.lessThan_iff hy hz).mp hlt'
  have hxz : ¬ (x = .nan ∨ z = .nan) := fun hor => hor.elim (fun hx => hxy (.inl hx)) fun hz => hyz (.inr hz)
  exact (hranks.lessThan_iff hx hz).mpr ⟨hxz, Std.lt_trans hlt hlt'⟩

theorem Heap.Ranks.total_order (hranks : h.Ranks member rank) (hx : member x) (hy : member y) (hz : member z) :
    ∃ v, h.Judges x y v ∧
      (x = .nan ∨ y = .nan → v = .incomparable) ∧
      (¬ (x = .nan ∨ y = .nan) → v.IsOrder) ∧
      (greaterThan x y).runOn h = (lessThan y x).runOn h ∧
      ((lessThan x y).runOn h = (.ok true, h) → (lessThan y z).runOn h = (.ok true, h) →
        (lessThan x z).runOn h = (.ok true, h)) := by
  have hgreater := hranks.greaterThan_eq hx hy
  have htrans := hranks.lessThan_trans hx hy hz
  by_cases hnan : x = .nan ∨ y = .nan
  · exact ⟨_, hranks.judges_nan hx hy hnan, fun _ => rfl, fun hnot => absurd hnan hnot, hgreater, htrans⟩
  · exact ⟨_, hranks.judges hx hy hnan, fun hor => absurd hor hnan, fun _ => Verdict.isOrder_ofRanks _ _,
      hgreater, htrans⟩

end Ranks

/-- Numbers all of them, or live strings all of them. -/
def Heap.OneKind (h : Heap) (values : List Value) : Prop :=
  (∀ v ∈ values, v.isNumeric = true) ∨ ∀ v ∈ values, h.IsLiveString v

/-- Numbers are ordered by the relational operators, and so are strings: with `nan` each operator and `===` say
no; otherwise one of `<`, `===` and `>` says yes, `<=` and `>=` add equality to them, `>` is `<` the other way
round, and `<` is transitive. Strings are in the lexicographic order of their code units, however wide the
storage and whether of the table or of the heap. -/
theorem relational_total_order (h : Heap) (hsem : h.semantics.IsFaithful) (x y z : Value)
    (hkind : h.OneKind [x, y, z]) :
    ∃ v, h.Judges x y v ∧
      (x = .nan ∨ y = .nan → v = .incomparable) ∧
      (¬ (x = .nan ∨ y = .nan) → v.IsOrder) ∧
      (greaterThan x y).runOn h = (lessThan y x).runOn h ∧
      ((lessThan x y).runOn h = (.ok true, h) → (lessThan y z).runOn h = (.ok true, h) →
        (lessThan x z).runOn h = (.ok true, h)) ∧
      ∀ a b t u, x = .string a → y = .string b → h.text a = .ok t → h.text b = .ok u →
        (v.lt = true ↔ t.units < u.units) := by
  have hlex : ∀ v, h.Judges x y v → ∀ a b t u, x = .string a → y = .string b → h.text a = .ok t →
      h.text b = .ok u → (v.lt = true ↔ t.units < u.units) := by
    rintro v hjudges a b t u rfl rfl ht hu
    exact hjudges.lt_iff_units ht hu
  rcases hkind with hnumbers | hstrings
  · obtain ⟨v, hjudges, hnan, horder, hgreater, htrans⟩ :=
      (ranks_numbers hsem).total_order (hnumbers x (by simp)) (hnumbers y (by simp)) (hnumbers z (by simp))
    exact ⟨v, hjudges, hnan, horder, hgreater, htrans, hlex v hjudges⟩
  · obtain ⟨v, hjudges, hnan, horder, hgreater, htrans⟩ :=
      h.ranks_strings.total_order (hstrings x (by simp)) (hstrings y (by simp)) (hstrings z (by simp))
    exact ⟨v, hjudges, hnan, horder, hgreater, htrans, hlex v hjudges⟩

/-- A narrow text and a wide one that begins with it. -/
def lettered : Heap :=
  { strings := #[some ⟨.ofUnits [0x61], 0⟩, some ⟨.ofUnits [0x61, 0xe9], 0⟩] }

/-- The empty string of the table comes before both. -/
theorem relational_total_order_lettered :
    lettered.semantics.IsFaithful ∧
    lettered.OneKind [.string (.builtin .empty), .string (.heap 0), .string (.heap 1)] ∧
    ∃ v, lettered.Judges (.string (.builtin .empty)) (.string (.heap 0)) v ∧ v.IsOrder ∧ v.lt = true := by
  have hkind : lettered.OneKind [.string (.builtin .empty), .string (.heap 0), .string (.heap 1)] := by
    refine .inr fun v hv => ?_
    simp only [List.mem_cons, List.not_mem_nil, or_false] at hv
    obtain rfl | rfl | rfl := hv
    · exact ⟨_, rfl, rfl⟩
    · exact ⟨_, rfl, rfl⟩
    · exact ⟨_, rfl, rfl⟩
  obtain ⟨v, hjudges, -, horder, -, -, hlex⟩ := relational_total_order lettered (.inl rfl) _ _ _ hkind
  have hempty : (Text.ofBuiltin .empty).units < (Text.ofUnits [0x61]).units := by
    rw [Text.units_ofBuiltin, Text.units_ofUnits]
    exact List.nil_lt_cons _ _
  exact ⟨.inl rfl, hkind, v, hjudges, horder (by simp), (hlex _ _ _ _ rfl rfl rfl rfl).mpr hempty⟩

end ScriptCore
