import ScriptCore.Proofs.WellFormed

/-! What objects inherit.

A property is stored by an object or given to it by its class: a length and indices to strings and arrays, a
length to functions. Stored properties are looked for on the whole chain of prototypes, those of a class only
at the object itself (`hasProperty_ok`). So an object has whatever the objects further up store, but not what
their classes give them: an object whose prototype is an array has no length. -/
namespace ScriptCore

open Heap HeapM

namespace Heap

variable {α : Type} {h : Heap} {o p q : ObjectRef}

/-- The second object is the first one or further up on its chain of prototypes. -/
inductive Inherits (h : Heap) : ObjectRef → ObjectRef → Prop where
  | refl (o : ObjectRef) : h.Inherits o o
  | link {o p q : ObjectRef} {object : Object} (ho : h.object o = .ok object)
      (hp : object.prototype? = some p) (hq : h.Inherits p q) : h.Inherits o q

/-- A chain that ends before it is given up, with all the strings that its wrappers hold alive. -/
structure SoundChain (h : Heap) (o : ObjectRef) : Prop where
  ends : h.EndsWithin (·.prototype?) (chainLimit - 1) o
  alive : ∀ q s, h.Inherits o q → h.objectClass q = .ok (.string s) → h.isLive s = true

/-- An object of the chain stores a property with the key. -/
def StoresAbove (h : Heap) (o : ObjectRef) (key : List UInt16) : Prop :=
  ∃ q object, h.Inherits o q ∧ h.object q = .ok object ∧ (object.property? key).isSome = true

/-! ### Chains -/

theorem Inherits.trans (hop : h.Inherits o p) (hpq : h.Inherits p q) : h.Inherits o q := by
  induction hop with
  | refl _ => exact hpq
  | link ho hp _ ih => exact .link ho hp (ih hpq)

/-- What is further up than an object is the object or further up than its prototype. -/
theorem Inherits.cases_prototype {object : Object} (ho : h.object o = .ok object) (hq : h.Inherits o q) :
    q = o ∨ ∃ p, object.prototype? = some p ∧ h.Inherits p q := by
  cases hq with
  | refl _ => exact .inl rfl
  | link ho' hp hrest =>
    obtain rfl := Except.ok.inj (ho.symm.trans ho')
    exact .inr ⟨_, hp, hrest⟩

theorem EndsWithin.mono {next : Object → Option ObjectRef} {m n : Nat} (hmn : m ≤ n)
    (ho : h.EndsWithin next m o) : h.EndsWithin next n o := by
  induction m generalizing n o with
  | zero => exact ho.elim
  | succ m ih =>
    obtain ⟨n, rfl⟩ : ∃ rest, n = rest + 1 := ⟨n - 1, by omega⟩
    obtain ⟨object, hobject, hnext⟩ := ho
    exact ⟨object, hobject, fun p hp => ih (by omega) (hnext p hp)⟩

/-- The rest of a chain is shorter. -/
theorem EndsWithin.inherits {n : Nat} (ho : h.EndsWithin (·.prototype?) n o) (hq : h.Inherits o q) :
    h.EndsWithin (·.prototype?) n q := by
  induction hq generalizing n with
  | refl _ => exact ho
  | link hobject hp _ ih =>
    cases n with
    | zero => exact ho.elim
    | succ n =>
      obtain ⟨object, hobject', hnext⟩ := ho
      obtain rfl := Except.ok.inj (hobject.symm.trans hobject')
      exact (ih (hnext _ hp)).mono (Nat.le_succ n)

theorem SoundChain.inherits (ho : h.SoundChain o) (hq : h.Inherits o q) : h.SoundChain q where
  ends := ho.ends.inherits hq
  alive r s hr := ho.alive r s (hq.trans hr)

theorem SoundChain.exists_object (ho : h.SoundChain o) : ∃ object, h.object o = .ok object := by
  obtain ⟨object, hobject, -⟩ := ho.ends
  exact ⟨object, hobject⟩

theorem StoresAbove.inherits {key : List UInt16} (hq : h.Inherits o q) (hstores : h.StoresAbove q key) :
    h.StoresAbove o key := by
  obtain ⟨r, object, hr, hobject, hkey⟩ := hstores
  exact ⟨r, object, hq.trans hr, hobject, hkey⟩

/-! ### Searches -/

/-- A search on a chain that ends finds an answer just when an object of the chain has one. -/
theorem searchChain_ok (question : Object → Option α) {n links : Nat} (hn : n ≤ links)
    (ho : h.EndsWithin (·.prototype?) n o) :
    ∃ answer?, h.searchChain question links o = .ok answer? ∧
      (answer?.isSome = true ↔
        ∃ q object, h.Inherits o q ∧ h.object q = .ok object ∧ (question object).isSome = true) := by
  induction n generalizing links o with
  | zero => exact ho.elim
  | succ n ih =>
    obtain ⟨object, hobject, hnext⟩ := ho
    obtain ⟨links, rfl⟩ : ∃ rest, links = rest + 1 := ⟨links - 1, by omega⟩
    rw [searchChain, hobject]
    simp only [bind, Except.bind]
    cases hanswer : question object with
    | some answer =>
      exact ⟨some answer, rfl, iff_of_true rfl ⟨o, object, .refl o, hobject, by rw [hanswer]; rfl⟩⟩
    | none =>
      -- The object itself does not answer, so that the answers are those of the rest of the chain.
      have hrest : ∀ {q found}, h.Inherits o q → h.object q = .ok found → (question found).isSome = true →
          ∃ p, object.prototype? = some p ∧ h.Inherits p q := by
        intro q found hq hfound hsome
        obtain rfl | hup := hq.cases_prototype hobject
        · obtain rfl := Except.ok.inj (hobject.symm.trans hfound)
          rw [hanswer] at hsome
          cases hsome
        · exact hup
      cases hp : object.prototype? with
      | none =>
        refine ⟨none, rfl, iff_of_false Bool.false_ne_true ?_⟩
        rintro ⟨q, found, hq, hfound, hsome⟩
        obtain ⟨p, hp', -⟩ := hrest hq hfound hsome
        cases hp.symm.trans hp'
      | some p =>
        obtain ⟨answer?, hsearch, hiff⟩ := ih (by omega : n ≤ links) (hnext p hp)
        refine ⟨answer?, hsearch, hiff.trans ⟨?_, ?_⟩⟩
        · rintro ⟨q, found, hq, hfound, hsome⟩
          exact ⟨q, found, .link hobject hp hq, hfound, hsome⟩
        · rintro ⟨q, found, hq, hfound, hsome⟩
          obtain ⟨p', hp', hq'⟩ := hrest hq hfound hsome
          obtain rfl := Option.some.inj (hp.symm.trans hp')
          exact ⟨q, found, hq', hfound, hsome⟩

/-- What no object of the chain answers is not found. -/
theorem searchChain_of_none {question : Object → Option α} {n links : Nat} (hn : n ≤ links)
    (ho : h.EndsWithin (·.prototype?) n o)
    (hnone : ∀ q object, h.Inherits o q → h.object q = .ok object → question object = none) :
    h.searchChain question links o = .ok none := by
  obtain ⟨answer?, hsearch, hiff⟩ := searchChain_ok question hn ho
  cases answer? with
  | none => exact hsearch
  | some answer =>
    obtain ⟨q, object, hq, hobject, hsome⟩ := hiff.mp rfl
    rw [hnone q object hq hobject] at hsome
    cases hsome

theorem hasIntrinsicProperty_ok (ho : h.SoundChain o) (key : Text) :
    ∃ b, h.hasIntrinsicProperty o key = .ok b := by
  obtain ⟨object, hobject⟩ := ho.exists_object
  have hclass := objectClass_of_object hobject
  simp only [hasIntrinsicProperty, hobject, bind, Except.bind]
  cases hpayload : object.payload with
  | string s =>
    rw [hpayload] at hclass
    obtain ⟨t, ht⟩ := exists_text (ho.alive o s (.refl o) hclass)
    simp only [ht]
    exact ⟨_, rfl⟩
  | _ => exact ⟨_, rfl⟩

/-- An object has the properties that its chain stores and those that its own class gives it. -/
theorem hasProperty_ok (ho : h.SoundChain o) {key : StringRef} {t : Text} (hkey : h.text key = .ok t) :
    ∃ b, h.hasProperty o key = .ok b ∧
      (b = true ↔ h.StoresAbove o t.units ∨ h.hasIntrinsicProperty o t = .ok true) := by
  obtain ⟨v?, hfind, hstores⟩ := searchChain_ok (·.property? t.units) (Nat.sub_le chainLimit 1) ho.ends
  obtain ⟨b, hown⟩ := hasIntrinsicProperty_ok ho t
  have hfind : h.findProperty o t.units = .ok v? := hfind
  simp only [hasProperty, hkey, hfind, hown, bind, Except.bind]
  cases v? with
  | some v => exact ⟨true, rfl, iff_of_true rfl (.inl (hstores.mp rfl))⟩
  | none =>
    refine ⟨b, rfl, ?_⟩
    have hnone : ¬ h.StoresAbove o t.units := fun habove => Bool.false_ne_true (hstores.mpr habove)
    rw [Except.ok.injEq, or_iff_right hnone]

end Heap

/-! ### The operator -/

/-- A string needs no conversion to be a key. -/
theorem runOn_isIn_string (key : StringRef) (o : ObjectRef) :
    (isIn (.string key) (.object o)).runOn h = (h.hasProperty o key, h) := by
  rw [isIn, runOn_withScratch, ScratchM.runOn_bind, ScratchM.runOn_lift]
  simp only [toStringRef, primitiveToString, runOn_pure, ScratchM.runOn_bind, ScratchM.runOn_trackFresh,
    ScratchM.runOn_lift, runOn_ask]
  rfl

/-- What an object further up has is in an object just when the chain of the object stores it or its own class
gives it. It is missing, then, only if the object further up has it from its class. -/
theorem hasProperty_inherited (h : Heap) (o q : ObjectRef) (key : StringRef) (t : Text)
    (hchain : h.SoundChain o) (hq : h.Inherits o q) (hkey : h.text key = .ok t)
    (hhas : h.hasProperty q key = .ok true) :
    (isIn (.string key) (.object o)).runOn h = (h.hasProperty o key, h) ∧
    (h.hasProperty o key = .ok true ↔ h.StoresAbove o t.units ∨ h.hasIntrinsicProperty o t = .ok true) ∧
    (h.hasProperty o key ≠ .ok true →
      h.hasProperty o key = .ok false ∧ h.hasIntrinsicProperty q t = .ok true) := by
  obtain ⟨b, hb, hiff⟩ := hasProperty_ok hchain hkey
  obtain ⟨c, hc, hiff'⟩ := hasProperty_ok (hchain.inherits hq) hkey
  obtain rfl := Except.ok.inj (hc.symm.trans hhas)
  rw [hb, Except.ok.injEq]
  refine ⟨hb ▸ runOn_isIn_string key o, hiff, fun hmissing => ?_⟩
  have hfalse : ¬ b = true := fun htrue => hmissing (congrArg Except.ok htrue)
  have habove : ¬ h.StoresAbove q t.units := fun hstores => hfalse (hiff.mpr (.inl (hstores.inherits hq)))
  exact ⟨congrArg Except.ok (Bool.eq_false_iff.mpr hfalse), (hiff'.mp rfl).resolve_left habove⟩

/-- An array that stores a property, an object that inherits from it, and one that inherits from that. -/
def lineage : Heap :=
  { objects := #[
      { payload := .array, properties := [((Text.ofBuiltin .name).units, .boolean true)] },
      { payload := .object, prototype? := some ⟨0⟩ },
      { payload := .object, prototype? := some ⟨1⟩ }] }

theorem inherits_lineage : lineage.Inherits ⟨2⟩ ⟨0⟩ := .link rfl rfl (.link rfl rfl (.refl _))

theorem soundChain_lineage : lineage.SoundChain ⟨2⟩ where
  ends := by
    refine EndsWithin.mono (m := 3) (by decide) ⟨_, rfl, fun p hp => ?_⟩
    obtain rfl := Option.some.inj hp
    refine ⟨_, rfl, fun p hp => ?_⟩
    obtain rfl := Option.some.inj hp
    exact ⟨_, rfl, fun _ hp => nomatch hp⟩
  alive q s hq hclass := by
    obtain ⟨object, hmem, hpayload⟩ := exists_of_objectClass hclass
    simp only [lineage, List.mem_toArray, List.mem_cons, List.not_mem_nil, or_false] at hmem
    rcases hmem with rfl | rfl | rfl <;> cases hpayload

theorem hasProperty_inherited_stored :
    lineage.SoundChain ⟨2⟩ ∧ lineage.hasProperty ⟨0⟩ (.builtin .name) = .ok true ∧
    (isIn (.string (.builtin .name)) (.object ⟨2⟩)).runOn lineage = (.ok true, lineage) := by
  have hhas : lineage.hasProperty ⟨0⟩ (.builtin .name) = .ok true := by decide +kernel
  obtain ⟨hin, hiff, -⟩ := hasProperty_inherited lineage ⟨2⟩ ⟨0⟩ (.builtin .name) (Text.ofBuiltin .name)
    soundChain_lineage inherits_lineage rfl hhas
  have hstores : lineage.StoresAbove ⟨2⟩ (Text.ofBuiltin .name).units :=
    ⟨⟨0⟩, _, inherits_lineage, rfl, by decide +kernel⟩
  exact ⟨soundChain_lineage, hhas, hin.trans (by rw [hiff.mpr (.inl hstores)])⟩

/-- The length of an array is not inherited. -/
theorem length_not_inherited :
    lineage.SoundChain ⟨2⟩ ∧ lineage.Inherits ⟨2⟩ ⟨0⟩ ∧ lineage.isLive (.builtin .length) = true ∧
    lineage.hasProperty ⟨0⟩ (.builtin .length) = .ok true ∧
    lineage.hasProperty ⟨1⟩ (.builtin .length) = .ok false ∧
    (isIn (.string (.builtin .length)) (.object ⟨2⟩)).runOn lineage = (.ok false, lineage) := by
  refine ⟨soundChain_lineage, inherits_lineage, rfl, by decide +kernel, by decide +kernel, ?_⟩
  rw [runOn_isIn_string, show lineage.hasProperty ⟨2⟩ (.builtin .length) = .ok false by decide +kernel]

end ScriptCore
