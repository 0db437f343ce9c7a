import ScriptCore.Proofs.ConversionOrder
import ScriptCore.Proofs.Counts
import ScriptCore.Proofs.Indiscernible
import ScriptCore.Proofs.Inheritance
import ScriptCore.Proofs.Symmetry

/-! The operands of `-`, `*`, `/` and `%`.

These operators read what a wrapper is around, where a conversion to a number runs the methods of the object. If
no method stands on the chain of a wrapper (`Heap.PlainWrappers`), both come to one number or fail with one error
(`resolve_outcome`). Behind them they leave heaps that differ in what was counted and noted only, provided that
the strings in wrappers have holders: otherwise a conversion would free them. So the second operand is converted
alike after either. -/
namespace ScriptCore

open Heap HeapM

variable {h g : Heap} {o : ObjectRef} {c : ObjectClass} {p v : Value}

/-! ### Wrappers -/

/-- What a wrapper is around. -/
def ObjectClass.wrapped? : ObjectClass → Option Value
  | number v => some v
  | boolean b => some (.boolean b)
  | string s => some (.string s)
  | _ => none

namespace Heap

/-- A chain without methods that ends before it is given up. -/
structure PlainChain (h : Heap) (o : ObjectRef) : Prop where
  ends : h.EndsWithin (·.prototype?) (chainLimit - 1) o
  unhooked : ∀ q object m, h.Inherits o q → h.object q = .ok object → object.hook? m = none

/-- Wrappers have no methods but those of their classes, and number wrappers hold numbers. -/
structure PlainWrappers (h : Heap) : Prop where
  chains : ∀ o c p, h.objectClass o = .ok c → c.wrapped? = some p → h.PlainChain o
  numbers : h.WrapsNumbers

/-- The strings in wrappers have holders. -/
def RetainsWrapped (h : Heap) : Prop :=
  ∀ o slot, h.objectClass o = .ok (.string (.heap slot)) →
    ∃ entry, h.slot? slot = some entry ∧ 1 ≤ entry.refcount

/-- A value of programs that is no function. -/
structure Operand (h : Heap) (v : Value) : Prop where
  ordinary : v.isEngineMade = false
  not_function : ∀ o f, v = .object o → h.objectClass o ≠ .ok (.function f)

theorem PlainChain.findHook (hc : h.PlainChain o) (m : Method) : h.findHook o m = .ok none :=
  searchChain_of_none (Nat.sub_le chainLimit 1) hc.ends fun q object => hc.unhooked q object m

/-! Only the objects of a heap count for this. -/

section Objects
variable (hobjects : g.objects = h.objects)
include hobjects

theorem Inherits.of_objects {q : ObjectRef} (hq : g.Inherits o q) : h.Inherits o q := by
  induction hq with
  | refl _ => exact .refl _
  | link ho hp _ ih => exact .link (object_congr hobjects _ ▸ ho) hp ih

theorem PlainWrappers.of_objects (hw : h.PlainWrappers) : g.PlainWrappers where
  chains o c p hclass hp := by
    have hchain := hw.chains o c p (objectClass_congr hobjects o ▸ hclass) hp
    refine ⟨hchain.ends.of_objects fun q object hq => (object_congr hobjects q).trans hq, ?_⟩
    exact fun q object m hq hobject =>
      hchain.unhooked q object m (hq.of_objects hobjects) ((object_congr hobjects q).symm.trans hobject)
  numbers object hmem := hw.numbers object (hobjects ▸ hmem)

theorem Operand.of_objects (hv : h.Operand v) : g.Operand v where
  ordinary := hv.ordinary
  not_function o f heq := objectClass_congr hobjects o ▸ hv.not_function o f heq

end Objects

/-! ### Brackets around held strings -/

theorem setRefcount_of_slot? {slot : UInt32} {entry : StringSlot} (hslot : h.slot? slot = some entry)
    (change : Nat → Nat) :
    h.setRefcount slot change = h.setSlot slot (some { entry with refcount := change entry.refcount }) := by
  rw [setRefcount, hslot]

theorem setSlot_setSlot (h : Heap) (slot : UInt32) (first second : Option StringSlot) :
    (h.setSlot slot first).setSlot slot second = h.setSlot slot second := by
  simp [setSlot]

theorem setSlot_self {slot : UInt32} {entry : StringSlot} (hslot : h.slot? slot = some entry) :
    h.setSlot slot (some entry) = h := by
  have hlt := lt_size_of_slot? hslot
  have hget : h.strings[slot.toNat] = some entry := by simpa [slot?, hlt] using hslot
  have hsame : h.strings.setIfInBounds slot.toNat (some entry) = h.strings := by
    rw [Array.setIfInBounds_def, dif_pos hlt, ← hget, Array.set_getElem_self]
  rw [setSlot, hsame]

/-- A string that is held is left as it was by a bracket. -/
theorem release_retain {slot : UInt32} {entry : StringSlot} (hslot : h.slot? slot = some entry)
    (hpos : 1 ≤ entry.refcount) :
    (h.retain (.string (.heap slot))).release (.string (.heap slot)) = h.countRetain.countRelease := by
  have hopen : h.retain (.string (.heap slot)) =
      h.countRetain.setSlot slot (some { entry with refcount := entry.refcount + 1 }) :=
    setRefcount_of_slot? (h := h.countRetain) hslot _
  have hheld : (h.retain (.string (.heap slot))).slot? slot =
      some { entry with refcount := entry.refcount + 1 } := by
    rw [slot?_retain, if_pos rfl, hslot, Option.map_some]
  have hclose : (h.retain (.string (.heap slot))).countRelease.setRefcount slot (· - 1) =
      h.countRetain.countRelease := by
    rw [setRefcount_of_slot? (h := (h.retain (.string (.heap slot))).countRelease) hheld, hopen]
    refine (setSlot_setSlot h.countRetain.countRelease slot _ _).trans ?_
    exact setSlot_self (h := h.countRetain.countRelease) hslot
  have hcount : h.countRetain.countRelease.stringRefcount? (.heap slot) = some entry.refcount :=
    congrArg (Option.map StringSlot.refcount) hslot
  have hnonzero : some entry.refcount ≠ some 0 := fun hzero => by
    have hzero := Option.some.inj hzero
    omega
  simp only [release, hclose, hcount, if_neg hnonzero]

end Heap

/-! ### Conversions of wrappers -/

section Wrapper
variable (hclass : h.objectClass o = .ok c) (hp : c.wrapped? = some p)
include hclass hp

/-- The class of a wrapper without methods answers with what the wrapper is around. -/
theorem runOn_toPrimitive_wrapper (hprimitive : p.isPrimitive = true) (hchain : h.PlainChain o) :
    (toPrimitive (.object o) .number).runOn h = (.ok p, h.logConversion o .number) := by
  have hlooks : (h.logConversion o .number).LooksLike h := ⟨rfl, rfl⟩
  have hdate : c.isDate = false := by cases c <;> first | rfl | cases hp
  have hintrinsic : (intrinsicValueOf o).runOn (h.logConversion o .number) =
      (.ok p, h.logConversion o .number) := by
    simp only [intrinsicValueOf, runOn_bind, runOn_ask, hlooks.objectClass, hclass]
    cases c <;> cases hp <;> rfl
  have hcall : (callMethod o .valueOf).runOn (h.logConversion o .number) =
      (.ok p, h.logConversion o .number) := by
    simp only [callMethod, runOn_bind, runOn_ask, hlooks.findHook, hchain.findHook]
    exact hintrinsic
  simp only [toPrimitive_object, runOn_bind, runOn_ask, hclass, hdate, Bool.false_eq_true, if_false, defaultValue,
    runOn_change, Hint.methods, hcall, hprimitive, if_true, runOn_pure]

theorem runOn_toNumber_wrapper (hprimitive : p.isPrimitive = true) (hchain : h.PlainChain o) :
    (toNumber (.object o)).runOn h =
      (h.primitiveToNumber p, ((h.logConversion o .number).retain p).release p) := by
  have htext : ((h.logConversion o .number).retain p).text = h.text := text_retain (h.logConversion o .number) p
  simp only [toNumber, withPrimitive, runOn_bind, runOn_toPrimitive_wrapper hclass hp hprimitive hchain,
    runOn_withTransient, runOn_ask, primitiveToNumber_congr htext]

theorem runOn_resolve_wrapper (hw : h.WrapsNumbers) :
    (resolve (.object o)).runOn h = ((h.primitiveToNumber p).map some, h) := by
  simp only [resolve_object, runOn_bind, runOn_ask, hclass]
  cases c with
  | number n =>
    obtain rfl := Option.some.inj hp
    have hn := hw.isNumeric hclass
    cases n with
    | int32 _ | double _ | nan | infinity _ => rfl
    | _ => cases hn
  | boolean b =>
    obtain rfl := Option.some.inj hp
    rfl
  | string s =>
    obtain rfl := Option.some.inj hp
    simp only [runOn_bind, runOn_ask, primitiveToNumber]
    cases h.text s <;> rfl
  | _ => cases hp

variable (hw : h.WrapsNumbers)
include hw

theorem isPrimitive_of_wrapped : p.isPrimitive = true := by
  cases c with
  | number n =>
    obtain rfl := Option.some.inj hp
    exact Value.isPrimitive_of_isNumeric (hw.isNumeric hclass)
  | boolean _ | string _ =>
    obtain rfl := Option.some.inj hp
    rfl
  | _ => cases hp

/-- The bracket around what a wrapper is around leaves the contents of the heap as they were. -/
theorem sameContents_wrapped (hretained : h.RetainsWrapped) (hint : Hint) :
    h.SameContents (((h.logConversion o hint).retain p).release p) := by
  have huncounted : p.isCounted = false → h.SameContents (((h.logConversion o hint).retain p).release p) := by
    intro hp
    rw [release_of_not_counted _ p hp, retain_of_not_counted _ p hp]
    rfl
  cases c with
  | number n =>
    obtain rfl := Option.some.inj hp
    exact huncounted (Value.isCounted_of_isNumeric (hw.isNumeric hclass))
  | boolean b =>
    obtain rfl := Option.some.inj hp
    exact huncounted rfl
  | string s =>
    obtain rfl := Option.some.inj hp
    cases s with
    | builtin b => exact huncounted rfl
    | heap slot =>
      obtain ⟨entry, hentry, hpos⟩ := hretained o slot hclass
      rw [release_retain (h := h.logConversion o hint) hentry hpos]
      rfl
  | _ => cases hp

end Wrapper

/-! ### Other operands -/

theorem runOn_resolve_of_isPrimitive {p : Value} (hp : p.isPrimitive = true) :
    (resolve p).runOn h = ((h.primitiveToNumber p).map some, h) := by
  rw [resolve_of_isPrimitive hp, runOn_bind, runOn_ask]
  cases h.primitiveToNumber p <;> rfl

/-- What is no wrapper is converted to a number. -/
theorem runOn_resolve_other (hv : h.Operand v)
    (hother : ∀ o c, v = .object o → h.objectClass o = .ok c → c.wrapped? = none) :
    (resolve v).runOn h = (((toNumber v).runOn h).1.map some, ((toNumber v).runOn h).2) := by
  cases v with
  | object o =>
    simp only [resolve_object, runOn_bind, runOn_ask]
    cases hclass : h.objectClass o with
    | error e => simp only [toNumber, withPrimitive, toPrimitive_object, runOn_bind, runOn_ask, hclass, Except.map]
    | ok payload =>
      cases payload with
      | number _ | boolean _ | string _ => cases hother o _ rfl hclass
      | function f => exact absurd hclass (hv.not_function o f rfl)
      | object | array | date _ =>
        simp only [runOn_bind]
        cases (toNumber (.object o)).runOn h with
        | mk outcome h' => cases outcome <;> rfl
  | environment _ | function _ => cases hv.ordinary
  | _ => exact runOn_resolve_of_isPrimitive rfl

/-! ### Both operands -/

/-- An operand is resolved to its number, or fails as its conversion does. -/
theorem resolve_outcome (hw : h.PlainWrappers) (hv : h.Operand v) :
    ((resolve v).runOn h).1 = ((toNumber v).runOn h).1.map some ∧ ((resolve v).runOn h).2.objects = h.objects ∧
      (h.RetainsWrapped → ((resolve v).runOn h).2.SameContents ((toNumber v).runOn h).2) := by
  by_cases hwrapper : ∃ o c p, v = .object o ∧ h.objectClass o = .ok c ∧ c.wrapped? = some p
  · obtain ⟨o, c, p, rfl, hclass, hp⟩ := hwrapper
    have hprimitive := isPrimitive_of_wrapped hclass hp hw.numbers
    rw [runOn_resolve_wrapper hclass hp hw.numbers,
      runOn_toNumber_wrapper hclass hp hprimitive (hw.chains o c p hclass hp)]
    exact ⟨rfl, rfl, fun hretained => sameContents_wrapped hclass hp hw.numbers hretained .number⟩
  · have hother : ∀ o c, v = .object o → h.objectClass o = .ok c → c.wrapped? = none :=
      fun o c hobject hclass => Option.eq_none_iff_forall_ne_some.mpr fun p hp =>
        hwrapper ⟨o, c, p, hobject, hclass, hp⟩
    rw [runOn_resolve_other hv hother]
    exact ⟨rfl, (toNumber_logs v).objects, fun _ => rfl⟩

/-- Arithmetic by conversion to numbers, the left operand first. -/
def byNumbers (compute : Value → Value → Value) (x y : Value) : HeapM Value := do
  let a ← toNumber x
  let b ← toNumber y
  return compute a b

theorem onNumbers_outcome (hw : h.PlainWrappers) (hretained : h.RetainsWrapped) {x y : Value} (hx : h.Operand x)
    (hy : h.Operand y) (compute : Value → Value → Value) :
    ((onNumbers compute x y).runOn h).1 = ((byNumbers compute x y).runOn h).1 := by
  obtain ⟨hfirst, hobjects, hcontents⟩ := resolve_outcome hw hx
  have hcontents := hcontents hretained
  simp only [onNumbers, byNumbers, runOn_bind]
  cases hrun : (resolve x).runOn h with
  | mk outcome h₁ =>
    cases hrun' : (toNumber x).runOn h with
    | mk outcome' h₁' =>
      rw [hrun, hrun'] at hfirst hcontents
      rw [hrun] at hobjects
      obtain rfl : outcome = outcome'.map some := hfirst
      cases outcome' with
      | error e => rfl
      | ok a =>
        -- The second operand is resolved after the first and converted after its conversion.
        obtain ⟨hsecond, -, -⟩ := resolve_outcome (hw.of_objects hobjects) (hy.of_objects hobjects)
        obtain ⟨halike, -⟩ := blind_toNumber indiscernible_sameContents y h₁ h₁' hcontents
        simp only [Except.map, runOn_bind]
        cases hrun₂ : (resolve y).runOn h₁ with
        | mk outcome₂ h₂ =>
          cases hrun₂' : (toNumber y).runOn h₁' with
          | mk outcome₂' h₂' =>
            rw [halike, hrun₂, hrun₂'] at hsecond
            obtain rfl : outcome₂ = outcome₂'.map some := hsecond
            cases outcome₂' <;> rfl

/-! ### Counts -/

/-- In the bracket around what a value is converted to no count is above this. -/
def Heap.BracketsWithin (n : Nat) (h : Heap) (v : Value) : Prop :=
  ∀ p h', (toPrimitive v .number).runOn h = (.ok p, h') → (h'.retain p).CountsWithin n

section Counts
variable {n : Nat} (hc : h.CountsWithin n)
include hc

theorem Heap.CountsWithin.brackets (v : Value) : h.BracketsWithin (n + 1) v := by
  intro p h' hrun
  have hbefore := hc.of_leftover (toPrimitive_settled v .number h).leftover (toPrimitive_logs v .number).objects
  rw [hrun] at hbefore
  exact hbefore.retain p

theorem Heap.CountsWithin.toNumber (v : Value) : ((ScriptCore.toNumber v).runOn h).2.CountsWithin n :=
  hc.of_leftover (toNumber_settled v h).leftover (toNumber_logs v).objects

theorem Heap.CountsWithin.resolve (v : Value) : ((ScriptCore.resolve v).runOn h).2.CountsWithin n :=
  hc.of_leftover (resolve_settled v h).leftover (resolve_logs v).objects

end Counts

/-- The four operators compute with the numbers that their operands are converted to, one after the other, and fail
with the errors of these conversions, although they take what is in wrappers without asking the wrappers. Counts
below the greatest word of 32 bits stay words in the brackets of both operands. -/
theorem arithmetic_eq_byNumbers (h : Heap) (hw : h.PlainWrappers) (hretained : h.RetainsWrapped)
    (hcounts : h.CountsWithin (2 ^ 32 - 2)) (x y : Value) (hx : h.Operand x) (hy : h.Operand y) :
    (((sub x y).runOn h).1 = ((byNumbers subNumbers x y).runOn h).1 ∧
      ((mul x y).runOn h).1 = ((byNumbers mulNumbers x y).runOn h).1 ∧
      ((div x y).runOn h).1 = ((byNumbers divNumbers x y).runOn h).1 ∧
      ((rem x y).runOn h).1 = ((byNumbers remNumbers x y).runOn h).1) ∧
    h.BracketsWithin (2 ^ 32 - 1) x ∧
    ((resolve x).runOn h).2.BracketsWithin (2 ^ 32 - 1) y ∧
    ((toNumber x).runOn h).2.BracketsWithin (2 ^ 32 - 1) y :=
  ⟨⟨onNumbers_outcome hw hretained hx hy _, onNumbers_outcome hw hretained hx hy _,
      onNumbers_outcome hw hretained hx hy _, onNumbers_outcome hw hretained hx hy _⟩,
    hcounts.brackets x, (hcounts.resolve x).brackets y, (hcounts.toNumber x).brackets y⟩

/-- A wrapped string and a wrapped number. -/
def wrappers : Heap :=
  { strings := #[some ⟨Text.ofString " 12 ", 1⟩]
    objects := #[{ payload := .string (.heap 0) }, { payload := .number (.int32 3) }] }

theorem mem_wrappers {object : Object} (hmem : object ∈ wrappers.objects) :
    object = { payload := .string (.heap 0) } ∨ object = { payload := .number (.int32 3) } := by
  simpa [wrappers] using hmem

theorem plainWrappers_wrappers : wrappers.PlainWrappers where
  chains o c p hclass hp := by
    cases hobject : wrappers.object o with
    | error e =>
      rw [objectClass, hobject] at hclass
      cases hclass
    | ok object =>
      refine ⟨EndsWithin.mono (m := 1) (by decide) ⟨object, hobject, fun q hq => ?_⟩,
        fun q object m _ hq => ?_⟩
      · obtain rfl | rfl := mem_wrappers (mem_of_object hobject) <;> cases hq
      · obtain rfl | rfl := mem_wrappers (mem_of_object hq) <;> cases m <;> rfl
  numbers object hmem v hv := by
    obtain rfl | rfl := mem_wrappers hmem
    · cases hv
    · obtain rfl := ObjectClass.number.inj hv
      rfl

theorem retainsWrapped_wrappers : wrappers.RetainsWrapped := by
  intro o slot hclass
  obtain ⟨object, hmem, hpayload⟩ := exists_of_objectClass hclass
  obtain rfl | rfl := mem_wrappers hmem
  · obtain rfl := StringRef.heap.inj (ObjectClass.string.inj hpayload)
    exact ⟨_, rfl, Nat.le_refl 1⟩
  · cases hpayload

theorem countsWithin_wrappers : wrappers.CountsWithin (2 ^ 32 - 2) := by
  refine .of_mem (fun entry hentry => ?_) fun object hobject => ?_
  · simp only [wrappers, List.mem_toArray, List.mem_singleton, Option.some.injEq] at hentry
    rw [hentry]
    decide
  · obtain rfl | rfl := mem_wrappers hobject <;> decide

theorem operand_wrappers (o : ObjectRef) : wrappers.Operand (.object o) where
  ordinary := rfl
  not_function p f _ hclass := by
    obtain ⟨object, hmem, hpayload⟩ := exists_of_objectClass hclass
    obtain rfl | rfl := mem_wrappers hmem <;> cases hpayload

/-- The wrapped string is one operand or both of them, or it stands beside a reference to nothing. -/
theorem arithmetic_eq_byNumbers_wrappers :
    ((mul (.object ⟨0⟩) (.object ⟨1⟩)).runOn wrappers).1 = .ok (.int32 36) ∧
    ((sub (.object ⟨0⟩) (.object ⟨0⟩)).runOn wrappers).1 = .ok (.int32 0) ∧
    ((div (.object ⟨0⟩) (.object ⟨2⟩)).runOn wrappers).1 = .error (.danglingObject ⟨2⟩) := by
  have hagree := fun o p => (arithmetic_eq_byNumbers wrappers plainWrappers_wrappers retainsWrapped_wrappers
    countsWithin_wrappers (.object o) (.object p) (operand_wrappers o) (operand_wrappers p)).1
  exact ⟨(hagree ⟨0⟩ ⟨1⟩).2.1.trans (by decide +kernel),
    (hagree ⟨0⟩ ⟨0⟩).1.trans (by decide +kernel),
    (hagree ⟨0⟩ ⟨2⟩).2.2.1.trans (by decide +kernel)⟩

end ScriptCore
