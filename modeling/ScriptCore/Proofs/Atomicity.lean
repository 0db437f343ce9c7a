import ScriptCore.Proofs.Holders
import ScriptCore.Proofs.OperandDispatch

/-! Changes that fail.

Where a change of an object fails, the heap is as it was (`Atomic`): a prototype and a method are put into an object
that was found, and what is no number is not wrapped at all. A store is the exception. It retains the value before
it looks the object up, so that a store into an object that is not there leaves the value with a holder that nobody
will release (`setProperty_fails_retaining`). Otherwise a store does three things: it puts the property into the
object, retains the new value, and releases the old one (`runOn_setProperty`). To store a value over
itself changes nothing but the counters. -/
namespace ScriptCore

open Heap HeapM

variable {α β : Type}

/-- A failure leaves the heap as it was. -/
def HeapM.Atomic (a : HeapM α) : Prop := ∀ h e h', a.runOn h = (.error e, h') → h' = h

namespace HeapM

theorem atomic_change (f : Heap → Heap) : (change f).Atomic := fun _ _ _ hrun => nomatch hrun

theorem atomic_act (f : Heap → α × Heap) : (act f).Atomic := fun _ _ _ hrun => nomatch hrun

theorem atomic_throw (e : Error) : (throw e : HeapM α).Atomic := fun _ _ _ hrun => (Prod.mk.inj hrun).2.symm

/-- A question may come first. -/
theorem Atomic.ask_bind {question : Heap → Except Error α} {f : α → HeapM β} (hf : ∀ x, (f x).Atomic) :
    (ask question >>= f).Atomic := by
  intro h e h' hrun
  rw [runOn_bind, runOn_ask] at hrun
  cases hanswer : question h with
  | error e =>
    rw [hanswer] at hrun
    exact (Prod.mk.inj hrun).2.symm
  | ok x =>
    rw [hanswer] at hrun
    exact hf x h e h' hrun

end HeapM

theorem atomic_updateObject (o : ObjectRef) (f : Object → Object) : (updateObject o f).Atomic :=
  .ask_bind fun _ => atomic_change _

theorem atomic_newNumberObject (v : Value) : (newNumberObject v).Atomic := by
  unfold newNumberObject
  split
  · exact atomic_act _
  · exact atomic_throw _

/-! ### Stores -/

namespace Object

/-- To set a property to what it is does nothing. -/
theorem insertProperty_of_lookup {key : List UInt16} {v : Value} {ps : List (List UInt16 × Value)}
    (hv : ps.lookup key = some v) : insertProperty key v ps = ps := by
  induction ps with
  | nil => cases hv
  | cons p rest ih =>
    obtain ⟨name, w⟩ := p
    by_cases hname : name = key
    · subst hname
      rw [List.lookup_cons_self] at hv
      rw [insertProperty, if_pos rfl, Option.some.inj hv]
    · rw [List.lookup_cons, beq_eq_false_iff_ne.mpr (Ne.symm hname)] at hv
      rw [insertProperty, if_neg hname, ih hv]

theorem withProperty_of_property? {object : Object} {key : List UInt16} {v : Value}
    (hv : object.property? key = some v) : object.withProperty key v = object := by
  rw [withProperty, insertProperty_of_lookup hv]

end Object

namespace Heap

variable {h : Heap} {o : ObjectRef} {object : Object} {key : List UInt16} {v : Value}

/-- A property put into an object, without any counting. -/
def store (h : Heap) (o : ObjectRef) (key : List UInt16) (v : Value) : Heap :=
  { h with objects := h.objects.modify o.index.toNat (·.withProperty key v) }

/-- The release of what a store replaced, if anything. -/
def releaseReplaced (h : Heap) : Option Value → Heap
  | some old => h.release old
  | none => h

theorem modify_of_getElem? {xs : Array Object} {i : Nat} (hget : xs[i]? = some object) (f : Object → Object) :
    xs.modify i f = xs.setIfInBounds i (f object) := by
  refine Array.ext_getElem? fun j => ?_
  rw [Array.getElem?_modify, Array.getElem?_setIfInBounds]
  split
  · rename_i heq
    subst heq
    rw [hget, if_pos (Array.getElem?_eq_some_iff.mp hget).1, Option.map_some]
  · rfl

theorem store_eq_setObject (hobject : h.object o = .ok object) :
    h.store o key v = h.setObject o (object.withProperty key v) := by
  rw [store, modify_of_getElem? (object_eq_ok.mp hobject), setObject]

theorem store_of_property? (hobject : h.object o = .ok object) (hv : object.property? key = some v) :
    h.store o key v = h := by
  have hget := object_eq_ok.mp hobject
  have hsame : h.objects.modify o.index.toNat (·.withProperty key v) = h.objects := by
    refine Array.ext_getElem? fun j => ?_
    rw [Array.getElem?_modify]
    split
    · rename_i heq
      rw [← heq, hget, Option.map_some, Object.withProperty_of_property? hv]
    · rfl
  rw [store, hsame]

theorem modify_comm {f g : Object → Object} (hcomm : ∀ object, f (g object) = g (f object)) (xs : Array Object)
    (i j : Nat) : (xs.modify i f).modify j g = (xs.modify j g).modify i f := by
  refine Array.ext_getElem? fun k => ?_
  simp only [Array.getElem?_modify]
  cases xs[k]? <;> split <;> split <;> simp [hcomm]

/-- The holders of an object and its properties are counted apart. -/
theorem store_setObjectRefcount (p : ObjectRef) (change : Nat → Nat) :
    (h.setObjectRefcount p change).store o key v = (h.store o key v).setObjectRefcount p change := by
  have hcomm := modify_comm (f := fun object => { object with refcount := change object.refcount })
    (g := (·.withProperty key v)) (fun _ => rfl) h.objects p.index.toNat o.index.toNat
  simp only [store, setObjectRefcount, hcomm]

theorem store_setRefcount (slot : UInt32) (change : Nat → Nat) :
    (h.setRefcount slot change).store o key v = (h.store o key v).setRefcount slot change := by
  have hslot : (h.store o key v).slot? slot = h.slot? slot := rfl
  unfold setRefcount
  rw [hslot]
  cases h.slot? slot <;> rfl

/-- It does not matter whether a value is retained before the store or after. -/
theorem store_retain (held : Value) : (h.retain held).store o key v = (h.store o key v).retain held := by
  obtain ⟨slot, rfl⟩ | ⟨p, rfl⟩ | hv := isCounted_cases held
  · exact store_setRefcount (h := h.countRetain) slot _
  · exact store_setObjectRefcount (h := h.countRetain) p _
  · rw [retain_of_not_counted _ _ hv, retain_of_not_counted _ _ hv]

/-- All that a retain does to an object is to count its holders. -/
theorem object_retain (h : Heap) (held : Value) (o : ObjectRef) :
    ∃ change : Nat → Nat, (h.retain held).object o =
      (h.object o).map fun object => { object with refcount := change object.refcount } := by
  have hsame : (h.retain held).objects = h.objects → ∃ change : Nat → Nat, (h.retain held).object o =
      (h.object o).map fun object => { object with refcount := change object.refcount } := fun hobjects =>
    ⟨id, by rw [object_congr hobjects]; cases h.object o <;> rfl⟩
  obtain ⟨slot, rfl⟩ | ⟨p, rfl⟩ | hv := isCounted_cases held
  · exact hsame (congrArg Heap.objects (besideStrings_retain h slot) :)
  · by_cases hp : p.index.toNat = o.index.toNat
    · refine ⟨(· + 1), ?_⟩
      simp only [retain, setObjectRefcount, countRetain, object, Array.getElem?_modify, if_pos hp]
      cases h.objects[o.index.toNat]? <;> rfl
    · refine ⟨id, ?_⟩
      simp only [retain, setObjectRefcount, countRetain, object, Array.getElem?_modify, if_neg hp]
      cases h.objects[o.index.toNat]? <;> rfl
  · exact hsame (by rw [retain_of_not_counted _ _ hv])

/-- What a store comes to. Of a value that cannot be stored the holder remains. -/
theorem runOn_setProperty (h : Heap) (o : ObjectRef) (key : Text) (v : Value) :
    (setProperty o key v).runOn h = match h.object o with
      | .ok object => (.ok (), ((h.store o key.units v).retain v).releaseReplaced (object.property? key.units))
      | .error e => (.error e, h.retain v) := by
  obtain ⟨change, hretained⟩ := object_retain h v o
  simp only [setProperty, runOn_bind, runOn_change, runOn_ask, hretained]
  cases hobject : h.object o with
  | error e => rfl
  | ok object =>
    rw [hobject] at hretained
    have hstore : (h.retain v).store o key.units v = _ := store_eq_setObject hretained
    have hproperty : ({ object with refcount := change object.refcount } : Object).property? key.units =
        object.property? key.units := rfl
    rw [← store_retain]
    simp only [Except.map, hproperty, ← hstore]
    cases object.property? key.units <;> rfl

/-- A store moves counts by the retain and the release alone. -/
theorem CountsWithin.store {n : Nat} (hc : h.CountsWithin n) : (h.store o key v).CountsWithin n where
  strings := hc.strings
  objects i object hobject := by
    simp only [Heap.store, Array.getElem?_modify] at hobject
    split at hobject
    · obtain ⟨old, hold, rfl⟩ := Option.map_eq_some_iff.mp hobject
      exact hc.objects i old hold
    · exact hc.objects i object hobject

theorem CountsWithin.releaseReplaced {n : Nat} (hc : h.CountsWithin n) (replaced? : Option Value) :
    (h.releaseReplaced replaced?).CountsWithin n := by
  cases replaced? with
  | some old => exact hc.release old
  | none => exact hc

/-! ### Stores of what is there -/

theorem setRefcount_of_slot?_none {slot : UInt32} (hslot : h.slot? slot = none) (change : Nat → Nat) :
    h.setRefcount slot change = h := by
  rw [setRefcount, hslot]

theorem release_retain_object (h : Heap) (p : ObjectRef) :
    (h.retain (.object p)).release (.object p) = h.countRetain.countRelease := by
  have hsame : (h.objects.modify p.index.toNat fun object =>
        { object with refcount := object.refcount + 1 }).modify p.index.toNat (fun object =>
        { object with refcount := object.refcount - 1 }) = h.objects := by
    refine Array.ext_getElem? fun k => ?_
    simp only [Array.getElem?_modify]
    cases h.objects[k]? <;> split <;> simp
  simp only [retain, release, setObjectRefcount, countRetain, countRelease, hsame]

/-- A value that is retained and then released is as it was, unless it is a string without another holder. -/
theorem release_retain_of_held
    (hheld : ∀ slot entry, v = .string (.heap slot) → h.slot? slot = some entry → 1 ≤ entry.refcount) :
    (h.retain v).release v = if v.isCounted then h.countRetain.countRelease else h := by
  obtain ⟨slot, rfl⟩ | ⟨p, rfl⟩ | hv := isCounted_cases v
  · have hcounted : (Value.string (.heap slot)).isCounted = true := rfl
    rw [if_pos hcounted]
    cases hslot : h.slot? slot with
    | some entry => exact release_retain hslot (hheld slot entry rfl hslot)
    | none =>
      -- Where there is no string, the calls are counted and nothing else.
      have hretain : h.retain (.string (.heap slot)) = h.countRetain :=
        setRefcount_of_slot?_none (h := h.countRetain) hslot _
      have hrelease : h.countRetain.countRelease.setRefcount slot (· - 1) = h.countRetain.countRelease :=
        setRefcount_of_slot?_none (h := h.countRetain.countRelease) hslot _
      have hnone : h.countRetain.countRelease.stringRefcount? (.heap slot) ≠ some 0 := by
        rw [show h.countRetain.countRelease.stringRefcount? (.heap slot) = (h.slot? slot).map (·.refcount) from rfl,
          hslot]
        exact nofun
      simp only [hretain, release, hrelease, if_neg hnone]
  · have hcounted : (Value.object p).isCounted = true := rfl
    rw [if_pos hcounted]
    exact release_retain_object h p
  · rw [retain_of_not_counted h v hv, release_of_not_counted h v hv, if_neg (Bool.eq_false_iff.mp hv)]

end Heap

/-! ### Failures and stores -/

/-- A prototype, a method and a wrapper that cannot be made leave the heap alone. A store fails where no object is,
and then the value has been retained. A store that succeeds puts the property into the object, retains the new value
and releases the one that it replaced; where these are the same only the counters move. If no count is at the
greatest word of 32 bits before a store, none has gone beyond it after. -/
theorem mutation_outcomes (h : Heap) (o : ObjectRef) :
    (∀ p, (setPrototype o p).Atomic) ∧ (∀ m hook, (setHook o m hook).Atomic) ∧
    (∀ v, (newNumberObject v).Atomic) ∧
    (h.CountsWithin (2 ^ 32 - 2) → ∀ key v h',
      (∀ e, (setProperty o key v).runOn h = (.error e, h') →
        h.object o = .error e ∧ h' = h.retain v ∧ (v.isCounted = false → h' = h) ∧
        h'.CountsWithin (2 ^ 32 - 1)) ∧
      ((setProperty o key v).runOn h = (.ok (), h') → ∃ object, h.object o = .ok object ∧
        h' = ((h.store o key.units v).retain v).releaseReplaced (object.property? key.units) ∧
        ((h.store o key.units v).retain v).CountsWithin (2 ^ 32 - 1) ∧ h'.CountsWithin (2 ^ 32 - 1) ∧
        (object.property? key.units = some v →
          (∀ slot entry, v = .string (.heap slot) → h.slot? slot = some entry → 1 ≤ entry.refcount) →
          h' = if v.isCounted then h.countRetain.countRelease else h))) := by
  refine ⟨fun p => atomic_updateObject o _, fun m hook => atomic_updateObject o _, atomic_newNumberObject,
    fun hcounts key v h' => ⟨fun e hrun => ?_, fun hrun => ?_⟩⟩
  · rw [runOn_setProperty] at hrun
    cases hobject : h.object o with
    | ok object =>
      rw [hobject] at hrun
      cases hrun
    | error e =>
      rw [hobject] at hrun
      obtain ⟨herror, rfl⟩ := Prod.mk.inj hrun
      exact ⟨Except.error.inj herror ▸ rfl, rfl, retain_of_not_counted h v, hcounts.retain v⟩
  · rw [runOn_setProperty] at hrun
    cases hobject : h.object o with
    | error e =>
      rw [hobject] at hrun
      cases hrun
    | ok object =>
      rw [hobject] at hrun
      obtain rfl := (Prod.mk.inj hrun).2
      have hretained : ((h.store o key.units v).retain v).CountsWithin (2 ^ 32 - 1) := hcounts.store.retain v
      refine ⟨object, rfl, rfl, hretained, hretained.releaseReplaced _, fun hsame hheld => ?_⟩
      rw [hsame, store_of_property? hobject hsame]
      exact release_retain_of_held hheld

/-- A string that nobody holds, and no object. -/
def unheld : Heap := { strings := #[some ⟨Text.ofString "x", 0⟩], stats := { allocated := 1 } }

/-- A store into an object that is not there leaves a holder behind. -/
theorem setProperty_fails_retaining :
    (setProperty ⟨0⟩ (Text.ofString "k") (.string (.heap 0))).runOn unheld =
      (.error (.danglingObject ⟨0⟩), unheld.retain (.string (.heap 0))) ∧
    unheld.stringRefcount? (.heap 0) = some 0 ∧
    (unheld.retain (.string (.heap 0))).stringRefcount? (.heap 0) = some 1 ∧
    ¬ (setProperty ⟨0⟩ (Text.ofString "k") (.string (.heap 0))).Atomic := by
  have hrun : (setProperty ⟨0⟩ (Text.ofString "k") (.string (.heap 0))).runOn unheld =
      (.error (.danglingObject ⟨0⟩), unheld.retain (.string (.heap 0))) := rfl
  refine ⟨hrun, rfl, rfl, fun hatomic => ?_⟩
  have hcounts : (unheld.retain (.string (.heap 0))).stringRefcount? (.heap 0) = some 0 := by
    rw [hatomic _ _ _ hrun]
    rfl
  cases hcounts

/-- A string that is held by the only object there is. -/
def shelf : Heap :=
  { strings := #[some ⟨Text.ofString "x", 1⟩]
    objects := #[{ payload := .object, properties := [(Utf16.ofString "k", .string (.heap 0))] }] }

theorem countsWithin_shelf : shelf.CountsWithin (2 ^ 32 - 2) := by
  refine .of_mem (fun entry hentry => ?_) fun object hobject => ?_
  · simp only [shelf, List.mem_toArray, List.mem_singleton, Option.some.injEq] at hentry
    rw [hentry]
    decide
  · simp only [shelf, List.mem_toArray, List.mem_singleton] at hobject
    rw [hobject]
    decide

theorem mutation_outcomes_shelf :
    (setPrototype ⟨7⟩ (some ⟨0⟩)).runOn shelf = (.error (.danglingObject ⟨7⟩), shelf) ∧
    (setProperty ⟨7⟩ (Text.ofString "k") (.int32 1)).runOn shelf = (.error (.danglingObject ⟨7⟩), shelf) ∧
    (setProperty ⟨0⟩ (Text.ofString "k") (.string (.heap 0))).runOn shelf =
      (.ok (), shelf.countRetain.countRelease) := by
  have hcounts := countsWithin_shelf
  obtain ⟨hprototype, -, -, hmissing⟩ := mutation_outcomes shelf ⟨7⟩
  obtain ⟨-, -, -, hthere⟩ := mutation_outcomes shelf ⟨0⟩
  have hlink : ((setPrototype ⟨7⟩ (some ⟨0⟩)).runOn shelf).2 = shelf := hprototype (some ⟨0⟩) _ _ _ rfl
  obtain ⟨-, -, hkept, -⟩ := (hmissing hcounts (Text.ofString "k") (.int32 1) _).1 (.danglingObject ⟨7⟩) rfl
  obtain ⟨object, hobject, -, -, -, hsame⟩ := (hthere hcounts (Text.ofString "k") (.string (.heap 0)) _).2 rfl
  obtain rfl := Except.ok.inj hobject
  have hheld : ∀ slot entry, Value.string (.heap 0) = .string (.heap slot) → shelf.slot? slot = some entry →
      1 ≤ entry.refcount := fun slot entry hv hslot => by
    cases hv
    obtain rfl := Option.some.inj hslot
    exact Nat.le_refl 1
  exact ⟨Prod.ext rfl hlink, Prod.ext rfl (hkept rfl), Prod.ext rfl (hsame (by decide +kernel) hheld)⟩

end ScriptCore
