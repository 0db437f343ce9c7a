import ScriptCore.Membership
import ScriptCore.Relational
import ScriptCore.Equality
import ScriptCore.Proofs.Conversions

/-! Well-formed heaps.

In a well-formed heap (`WellFormed`) whatever an object leads to can be followed: strings are alive and
retained, prototypes and the targets of bound functions exist, and chains of them end before they are given
up. Questions about usable values then have answers; at most they raise a type error (`Fine`). -/
namespace ScriptCore

variable {α β : Type}

/-! ### Outcomes without internal errors -/

/-- A result or a type error. -/
def Fine (outcome : Except Error α) : Prop := ∀ e, outcome = .error e → e.kind = .typeError

namespace Fine

theorem ok (x : α) : Fine (.ok x) := nofun

theorem error {e : Error} (he : e.kind = .typeError) : Fine (.error e : Except Error α) := by
  intro e' heq
  obtain rfl := Except.error.inj heq
  exact he

theorem bind {a : Except Error α} {f : α → Except Error β} (ha : Fine a) (hf : ∀ x, a = .ok x → Fine (f x)) :
    Fine (a >>= f) := by
  cases a with
  | error e => exact error (ha e rfl)
  | ok x => exact hf x rfl

theorem map {a : Except Error α} (ha : Fine a) (f : α → β) : Fine (a >>= fun x => pure (f x)) :=
  ha.bind fun x _ => ok (f x)

end Fine

/-! ### Well-formed heaps -/

/-- What a bound function is bound to. -/
def ObjectClass.target? : ObjectClass → Option ObjectRef
  | function (.bound target) => some target
  | _ => none

namespace Heap

variable {h h' : Heap}

/-- The objects of a chain exist, and there are at most so many. -/
def EndsWithin (h : Heap) (next : Object → Option ObjectRef) : Nat → ObjectRef → Prop
  | 0, _ => False
  | n + 1, o => ∃ object, h.object o = .ok object ∧ ∀ p, next object = some p → h.EndsWithin next n p

structure WellFormed (h : Heap) : Prop where
  sound : h.Sound
  /-- What an object leads to is alive and has a holder. -/
  held : ∀ slot, h.Stores (.string (.heap slot)) → ∃ entry, h.slot? slot = some entry ∧ 1 ≤ entry.refcount
  prototypes : ∀ o object, h.object o = .ok object → h.EndsWithin (·.prototype?) (chainLimit - 1) o
  targets : ∀ o object, h.object o = .ok object → h.EndsWithin (·.payload.target?) (chainLimit - 1) o
  numbers : ∀ object ∈ h.objects, ∀ v, object.payload = .number v → v.isNumeric = true

/-- The strings that objects lead to have fewer holders than the limit. -/
def HeldBelow (h : Heap) (limit : Nat) : Prop :=
  ∀ slot entry, h.Stores (.string (.heap slot)) → h.slot? slot = some entry → entry.refcount < limit

/-- What a program can have as an operand: references lead somewhere, and the engine's own addresses are out
of reach. -/
def Usable (h : Heap) : Value → Prop
  | .string s => h.isLive s = true
  | .object o => ∃ object, h.object o = .ok object
  | .environment _ | .function _ => False
  | _ => True

theorem WellFormed.isLive (hw : h.WellFormed) {s : StringRef} (hs : h.Stores (.string s)) :
    h.isLive s = true := by
  cases s with
  | builtin b => rfl
  | heap slot =>
    obtain ⟨entry, hslot, _⟩ := hw.held slot hs
    exact (isLive_heap h slot).mpr ⟨entry, hslot⟩

theorem EndsWithin.of_objects {next : Object → Option ObjectRef} {n : Nat} {o : ObjectRef}
    (hn : h.EndsWithin next n o) (ho : ∀ o object, h.object o = .ok object → h'.object o = .ok object) :
    h'.EndsWithin next n o := by
  induction n generalizing o with
  | zero => exact hn
  | succ n ih =>
    obtain ⟨object, hobject, hnext⟩ := hn
    exact ⟨object, ho o object hobject, fun p hp => ih (hnext p hp)⟩

theorem objectClass_of_object {o : ObjectRef} {object : Object} (ho : h.object o = .ok object) :
    h.objectClass o = .ok object.payload := by
  rw [objectClass, ho]
  rfl

/-! ### Questions about strings and objects -/

theorem fine_text {s : StringRef} (hs : h.isLive s = true) : Fine (h.text s) := by
  cases s with
  | builtin b => exact .ok _
  | heap slot =>
    obtain ⟨entry, hslot⟩ := (isLive_heap h slot).mp hs
    simp only [text, hslot]
    exact .ok _

theorem fine_objectClass {o : ObjectRef} (ho : h.Usable (.object o)) : Fine (h.objectClass o) := by
  obtain ⟨object, hobject⟩ := ho
  rw [objectClass_of_object hobject]
  exact .ok _

theorem fine_searchChain (question : Object → Option α) {n links : Nat} {o : ObjectRef} (hn : n ≤ links)
    (ho : h.EndsWithin (·.prototype?) n o) : Fine (h.searchChain question links o) := by
  induction n generalizing links o with
  | zero => exact ho.elim
  | succ n ih =>
    obtain ⟨object, hobject, hnext⟩ := ho
    obtain ⟨links, rfl⟩ : ∃ rest, links = rest + 1 := ⟨links - 1, by omega⟩
    rw [searchChain, hobject]
    refine Fine.bind (.ok object) fun _ heq => ?_
    obtain rfl := Except.ok.inj heq
    cases question object with
    | some answer => exact .ok _
    | none =>
      cases hp : object.prototype? with
      | none => exact .ok _
      | some p => exact ih (by omega) (hnext p hp)

theorem fine_findHook (hw : h.WellFormed) {o : ObjectRef} (ho : h.Usable (.object o)) (m : Method) : Fine
    (h.findHook o m) := by
  obtain ⟨object, hobject⟩ := ho
  exact fine_searchChain _ (Nat.sub_le _ _) (hw.prototypes o object hobject)

theorem fine_findProperty (hw : h.WellFormed) {o : ObjectRef} (ho : h.Usable (.object o))
    (key : List UInt16) : Fine (h.findProperty o key) := by
  obtain ⟨object, hobject⟩ := ho
  exact fine_searchChain _ (Nat.sub_le _ _) (hw.prototypes o object hobject)

theorem fine_hasIntrinsicProperty (hw : h.WellFormed) {o : ObjectRef} (ho : h.Usable (.object o))
    (key : Text) : Fine (h.hasIntrinsicProperty o key) := by
  obtain ⟨object, hobject⟩ := ho
  rw [hasIntrinsicProperty, hobject]
  refine Fine.bind (.ok object) fun _ heq => ?_
  obtain rfl := Except.ok.inj heq
  cases hpayload : object.payload with
  | string s =>
    have hstores : h.Stores (.string s) :=
      stores_of_payload (objectClass_of_object hobject) (by simp [hpayload, ObjectClass.values])
    exact (fine_text (hw.isLive hstores)).map _
  | _ => exact .ok _

theorem fine_hasProperty (hw : h.WellFormed) {o : ObjectRef} (ho : h.Usable (.object o)) {key : StringRef}
    (hkey : h.isLive key = true) : Fine (h.hasProperty o key) := by
  refine (fine_text hkey).bind fun t _ => (fine_findProperty hw ho t.units).bind fun v? _ => ?_
  split
  · exact .ok _
  · exact fine_hasIntrinsicProperty hw ho t

theorem fine_joinedFrom (hw : h.WellFormed) {elements : List Value} (hstores : ∀ v ∈ elements, h.Stores v)
    (i : Nat) (out : Text) : Fine (h.joinedFrom i out elements) := by
  induction elements generalizing i out with
  | nil => exact .ok out
  | cons v rest ih =>
    rw [List.forall_mem_cons] at hstores
    have hpiece : Fine (h.elementText v) := by
      unfold elementText
      split <;> try exact .ok _
      exact fine_text (hw.isLive hstores.1)
    exact hpiece.bind fun piece _ => ih hstores.2 _ _

theorem fine_reaches (target : ObjectRef) {n links : Nat} {o? : Option ObjectRef} (hn : n ≤ links)
    (ho : ∀ o, o? = some o → h.EndsWithin (·.prototype?) n o) : Fine (h.reaches target links o?) := by
  induction n generalizing links o? with
  | zero =>
    cases o? with
    | none => rw [reaches]; exact .ok _
    | some o => exact (ho o rfl).elim
  | succ n ih =>
    cases o? with
    | none => rw [reaches]; exact .ok _
    | some o =>
      obtain ⟨object, hobject, hnext⟩ := ho o rfl
      obtain ⟨links, rfl⟩ : ∃ rest, links = rest + 1 := ⟨links - 1, by omega⟩
      unfold reaches
      split
      · exact .ok _
      · rw [hobject]
        exact ih (by omega) hnext

theorem fine_hasInstance (hw : h.WellFormed) {function : ObjectRef} (hf : h.Usable (.object function))
    {v : Value} (hv : h.Usable v) : Fine (h.hasInstance function v) := by
  unfold hasInstance
  cases v with
  | object inheritor =>
    obtain ⟨object, hobject⟩ := hv
    refine (fine_findProperty hw hf _).bind fun property? _ => ?_
    split
    · obtain ⟨_, hfound, hnext⟩ := hw.prototypes inheritor object hobject
      obtain rfl := Except.ok.inj (hobject.symm.trans hfound)
      rw [hobject]
      exact fine_reaches _ (by decide) hnext
    · exact .error rfl
  | _ => exact .ok _

/-- A chain of bound functions ends with an object. -/
theorem unbind_ok {n links : Nat} {f : ObjectRef} (hn : n ≤ links)
    (hf : h.EndsWithin (·.payload.target?) n f) : ∃ g, h.unbind links f = .ok g ∧ h.Usable (.object g) := by
  induction n generalizing links f with
  | zero => exact hf.elim
  | succ n ih =>
    obtain ⟨object, hobject, hnext⟩ := hf
    obtain ⟨links, rfl⟩ : ∃ rest, links = rest + 1 := ⟨links - 1, by omega⟩
    simp only [unbind, objectClass_of_object hobject, bind, Except.bind]
    split
    · rename_i target htarget
      exact ih (by omega) (hnext target (by simp [htarget, ObjectClass.target?]))
    · exact ⟨f, rfl, object, hobject⟩

theorem fine_isCallable {v : Value} (hv : h.Usable v) : Fine (h.isCallable v) := by
  cases v with
  | object o => exact (fine_objectClass hv).map _
  | _ => exact .ok _

theorem fine_instanceOf (hw : h.WellFormed) {x y : Value} (hx : h.Usable x) (hy : h.Usable y) : Fine
    (h.instanceOf x y) := by
  unfold instanceOf
  refine (fine_isCallable hy).bind fun callable _ => ?_
  cases callable with
  | false => exact Fine.error (e := .notCallable) rfl
  | true =>
    cases y with
    | object f =>
      obtain ⟨object, hobject⟩ := hy
      obtain ⟨target, htarget, hexists⟩ := unbind_ok (Nat.sub_le _ _) (hw.targets f object hobject)
      show Fine (h.unbind chainLimit f >>= fun target => h.hasInstance target x)
      rw [htarget]
      exact fine_hasInstance hw hexists hx
    | _ => exact .ok _

/-! ### Questions about values -/

theorem fine_typeName {v : Value} (hv : h.Usable v) : Fine (h.typeName v) := by
  cases v with
  | object o => exact (fine_objectClass hv).map _
  | environment _ => exact hv.elim
  | _ => exact .ok _

theorem fine_toBoolean {v : Value} (hv : h.Usable v) : Fine (h.toBoolean v) := by
  cases v with
  | boolean b => exact .ok b
  | string s => exact (fine_text hv).map _
  | environment _ => exact hv.elim
  | _ => exact .ok _

theorem fine_primitiveToNumber {v : Value} (hv : h.Usable v) (hp : v.isPrimitive = true) :
    Fine (h.primitiveToNumber v) := by
  cases v with
  | string s => exact (fine_text hv).map _
  | object _ | environment _ | function _ => cases hp
  | _ => exact .ok _

theorem fine_primitiveToLengthBy (cast : Double → Option UInt64) {v : Value} (hv : h.Usable v)
    (hp : v.isPrimitive = true) : Fine (h.primitiveToLengthBy cast v) := by
  cases v with
  | string s => exact (fine_text hv).map _
  | infinity sign => cases sign <;> exact .ok _
  | object _ | environment _ | function _ => cases hp
  | _ => exact .ok _

theorem fine_comparePrimitives {x y : Value} (hx : h.Usable x) (hy : h.Usable y) (hpx : x.isPrimitive = true)
    (hpy : y.isPrimitive = true) : Fine (h.comparePrimitives x y) := by
  unfold comparePrimitives
  split
  · exact (fine_text hx).bind fun _ _ => (fine_text hy).map _
  · exact (fine_primitiveToNumber hx hpx).bind fun _ _ => (fine_primitiveToNumber hy hpy).map _

theorem fine_sameValue {x y : Value} (hx : h.Usable x) (hy : h.Usable y) : Fine (h.sameValue x y) := by
  unfold sameValue
  split
  · exact .ok _
  · split
    · exact .ok _
    · exact .ok _
    · exact .ok _
    · exact (fine_text hx).bind fun _ _ => (fine_text hy).map _
    · refine (fine_objectClass hx).bind fun _ _ => (fine_objectClass hy).bind fun _ _ => ?_
      split <;> exact .ok _
    · exact hy.elim
    · exact hx.elim
    · exact .ok _

theorem usable_withoutNegativeZero {v : Value} (hv : h.Usable v) : h.Usable v.withoutNegativeZero := by
  unfold Value.withoutNegativeZero
  split
  · trivial
  · exact hv

theorem fine_strictEquals {x y : Value} (hx : h.Usable x) (hy : h.Usable y) : Fine (h.strictEquals x y) := by
  unfold strictEquals
  have hx' := usable_withoutNegativeZero hx
  have hy' := usable_withoutNegativeZero hy
  split
  any_goals exact .ok _
  exact fine_sameValue hx' hy'

end Heap

theorem fine_checkCoercible (v : Value) : Fine (checkCoercible v) := by
  unfold checkCoercible
  split
  · exact .error rfl
  · exact .ok ()

theorem fine_toInt64 (v : Value) : Fine v.toInt64 := by
  cases v with
  | infinity sign => cases sign <;> exact .ok _
  | undefined | null | none | string _ | object _ | environment _ | function _ => exact .error rfl
  | _ => exact .ok _

end ScriptCore
