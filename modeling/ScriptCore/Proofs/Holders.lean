import Mathlib.Data.List.Perm.Basic
import ScriptCore.Proofs.Counts
import ScriptCore.Proofs.StackDiscipline

/-! Strings in objects.

A program may make strings and objects, store values in objects, convert and apply operators in any order.
Wrappers, arrays and properties retain the strings that are stored in them, so at every point of every
program each such string is alive, retained once for each place that it is stored in, and it keeps its text
as long as some object holds it (`run_keeps_held`). The invariant is `Backed`; it bounds counts from
below, since a store that fails has retained its value already. `Heap.CountsRetains` bounds them from above.

Methods do not retain what they answer with. A conversion of their object retains and releases the answer,
and the release frees it if nobody else holds it (`hook_outlives_string`). -/
namespace ScriptCore

open Heap HeapM

/-! ### Programs -/

/-- What a program asks of a heap. -/
inductive HeapCommand where
  | allocate (t : Text)
  | newObject
  | newArray (elements : List Value)
  | newStringObject (s : StringRef)
  | setProperty (o : ObjectRef) (key : Text) (v : Value)
  | setHook (o : ObjectRef) (m : Method) (hook : Hook)
  | toObject (v : Value)
  | call (c : Call)

/-- The values that a command stores in an object. -/
def HeapCommand.stored : HeapCommand → List Value
  | newArray elements => elements
  | newStringObject s => [.string s]
  | setProperty _ _ v => [v]
  | setHook _ _ hook => hook.values
  | toObject v => [v]
  | allocate _ | newObject | call _ => []

namespace Heap

/-- The heap after a command. Failing commands go unreported. -/
def step (h : Heap) : HeapCommand → Heap
  | .allocate t => (h.allocate t).2
  | .newObject => (ScriptCore.newObject.runOn h).2
  | .newArray elements => (h.newArray elements).2
  | .newStringObject s => (h.newStringObject s).2
  | .setProperty o key v => ((ScriptCore.setProperty o key v).runOn h).2
  | .setHook o m hook => ((ScriptCore.setHook o m hook).runOn h).2
  | .toObject v => ((ScriptCore.toObject v).runOn h).2
  | .call c => (c.run.runOn h).2

def run (h : Heap) (commands : List HeapCommand) : Heap := commands.foldl step h

/-- Strings are alive when they are stored. -/
def Allows (h : Heap) (c : HeapCommand) : Prop := ∀ s, .string s ∈ c.stored → h.isLive s = true

def AllowsAll (h : Heap) : List HeapCommand → Prop
  | [] => True
  | c :: rest => h.Allows c ∧ (h.step c).AllowsAll rest

end Heap

/-! ### Holdings -/

/-- The values that an object retains: all that it stores but the answers of methods. -/
def Object.holdings (o : Object) : List Value := o.payload.values ++ o.elements ++ o.properties.map (·.2)

namespace Heap

/-- The values that the objects retain, once for each place. -/
def holdings (h : Heap) : List Value := h.objects.toList.flatMap Object.holdings

def Holds (h : Heap) (slot : UInt32) : Prop := .string (.heap slot) ∈ h.holdings

/-- An object holds the string after each of the commands. -/
def HoldsThroughout (h : Heap) (slot : UInt32) : List HeapCommand → Prop
  | [] => True
  | c :: rest => (h.step c).Holds slot ∧ (h.step c).HoldsThroughout slot rest

variable (h : Heap)

theorem holdings_addObject (object : Object) :
    (h.addObject object).2.holdings = h.holdings ++ object.holdings := by
  simp [holdings, addObject]

theorem holdings_setObjectRefcount (o : ObjectRef) (change : Nat → Nat) :
    (h.setObjectRefcount o change).holdings = h.holdings := by
  have hmap : ∀ objects : Array Object, objects.toList.flatMap Object.holdings =
      (objects.map Object.holdings).toList.flatten := fun objects => by simp [List.flatMap]
  simp only [holdings, hmap, setObjectRefcount]
  congr 2
  refine Array.ext (by simp) fun i _ _ => ?_
  simp only [Array.getElem_map, Array.getElem_modify]
  split <;> rfl

theorem holdings_retain (v : Value) : (h.retain v).holdings = h.holdings := by
  obtain ⟨slot, rfl⟩ | ⟨o, rfl⟩ | hv := isCounted_cases v
  · exact (congrArg holdings (besideStrings_retain h slot) :)
  · exact holdings_setObjectRefcount h.countRetain o _
  · rw [retain_of_not_counted h v hv]

theorem holdings_release (v : Value) : (h.release v).holdings = h.holdings := by
  obtain ⟨slot, rfl⟩ | ⟨o, rfl⟩ | hv := isCounted_cases v
  · exact (congrArg holdings (besideStrings_release h slot) :)
  · exact holdings_setObjectRefcount h.countRelease o _
  · rw [release_of_not_counted h v hv]

/-- An object in another's place brings its holdings and takes away those of the other. -/
theorem holdings_setObject {h : Heap} {o : ObjectRef} {old : Object} (hold : h.object o = .ok old)
    (new : Object) : (old.holdings ++ (h.setObject o new).holdings).Perm (new.holdings ++ h.holdings) := by
  obtain ⟨hlt, hget⟩ : ∃ hlt : o.index.toNat < h.objects.toList.length,
      h.objects.toList[o.index.toNat] = old := by
    simpa using Array.getElem?_eq_some_iff.mp (object_eq_ok.mp hold)
  have hnew : (h.setObject o new).objects.toList = h.objects.toList.set o.index.toNat new := by
    simp [setObject]
  have hafter := (List.set_perm_cons_eraseIdx hlt new).flatMap_right Object.holdings
  have hbefore := (List.getElem_cons_eraseIdx_perm hlt).flatMap_right Object.holdings
  rw [hget] at hbefore
  simp only [List.flatMap_cons] at hafter hbefore
  unfold holdings
  rw [hnew]
  refine (hafter.append_left _).trans ?_
  rw [← List.append_assoc]
  exact (List.perm_append_comm.append_right _).trans (by rw [List.append_assoc]; exact hbefore.append_left _)

end Heap

/-! ### The invariant -/

/-- Each string among the values is alive and retained at least once for each time that it is among them. -/
structure Backed (h : Heap) (values : List Value) : Prop where
  sound : h.Sound
  held : ∀ slot, .string (.heap slot) ∈ values →
    ∃ entry, h.slot? slot = some entry ∧ occurrences values slot ≤ entry.refcount

namespace Backed

variable {h h' : Heap} {v : Value} {values few : List Value}

theorem exists_entry (hb : Backed h values) {slot : UInt32} (hmem : .string (.heap slot) ∈ values) :
    ∃ entry, h.slot? slot = some entry ∧ 1 ≤ entry.refcount := by
  obtain ⟨entry, hslot, hcount⟩ := hb.held slot hmem
  exact ⟨entry, hslot, Nat.le_trans (occurrences_pos.mpr hmem) hcount⟩

theorem mono (hb : Backed h values) (hfew : ∀ slot, occurrences few slot ≤ occurrences values slot) :
    Backed h few where
  sound := hb.sound
  held slot hmem := by
    have hpos := Nat.lt_of_lt_of_le (occurrences_pos.mpr hmem) (hfew slot)
    obtain ⟨entry, hslot, hcount⟩ := hb.held slot (occurrences_pos.mp hpos)
    exact ⟨entry, hslot, Nat.le_trans (hfew slot) hcount⟩

theorem perm (hb : Backed h values) (hp : values.Perm few) : Backed h few :=
  hb.mono fun _ => Nat.le_of_eq (hp.count_eq _).symm

/-- A value may be left out. -/
theorem tail (hb : Backed h (v :: values)) : Backed h values :=
  hb.mono fun slot => by rw [occurrences_cons]; exact Nat.le_add_right _ _

/-- What the heap does not count may be added. -/
theorem uncounted (hb : Backed h values) (hfew : ∀ v ∈ few, v.isCounted = false) : Backed h
    (few ++ values) := by
  refine hb.mono fun slot => ?_
  have hout : .string (.heap slot) ∉ few := fun hmem => nomatch hfew _ hmem
  rw [occurrences, List.count_append, List.count_eq_zero_of_not_mem hout, Nat.zero_add]
  exact Nat.le_refl _

/-- What only changes objects leaves strings backed. -/
theorem congr (hb : Backed h values) (hstrings : h'.strings = h.strings)
    (hfree : h'.freeSlots = h.freeSlots) : Backed h' values where
  sound := sound_invariant.congr hb.sound hstrings hfree
  held slot hmem := by
    have hslot : h'.slot? slot = h.slot? slot := by simp only [slot?, hstrings]
    rw [hslot]
    exact hb.held slot hmem

theorem frame (hb : Backed h values) (hf : Frame h h') : Backed h' values where
  sound := hf.sound
  held slot hmem := by
    obtain ⟨entry, hslot, hcount⟩ := hb.held slot hmem
    exact ⟨entry, hf.held slot entry hslot (Nat.le_trans (occurrences_pos.mpr hmem) hcount), hcount⟩

theorem retain (hb : Backed h values)
    (hlive : ∀ slot, v = .string (.heap slot) → ∃ entry, h.slot? slot = some entry) :
    Backed (h.retain v) (v :: values) where
  sound := sound_invariant.retain hb.sound v
  held slot hmem := by
    rw [slot?_retain, occurrences_cons]
    by_cases hv : v = .string (.heap slot)
    · obtain ⟨entry, hslot⟩ := hlive slot hv
      refine ⟨{ entry with refcount := entry.refcount + 1 }, by simp [hv, hslot], ?_⟩
      rw [if_pos hv]
      by_cases hold : .string (.heap slot) ∈ values
      · obtain ⟨entry', hslot', hcount⟩ := hb.held slot hold
        obtain rfl := Option.some.inj (hslot.symm.trans hslot')
        exact Nat.succ_le_succ hcount
      · have hzero : occurrences values slot = 0 := List.count_eq_zero_of_not_mem hold
        rw [hzero]
        exact Nat.succ_le_succ (Nat.zero_le _)
    · rw [if_neg hv, if_neg hv, Nat.add_zero]
      exact hb.held slot ((List.mem_cons.mp hmem).resolve_left (Ne.symm hv))

theorem release (hb : Backed h (v :: values)) : Backed (h.release v) values where
  sound := sound_invariant.release hb.sound v
  held slot hmem := by
    obtain ⟨entry, hslot, hcount⟩ := hb.held slot (List.mem_cons_of_mem v hmem)
    have hpos := occurrences_pos.mpr hmem
    rw [occurrences_cons] at hcount
    rw [slot?_release, hslot]
    by_cases hv : v = .string (.heap slot)
    · rw [if_pos hv] at hcount ⊢
      have hmany : ¬ entry.refcount ≤ 1 := by omega
      refine ⟨{ entry with refcount := entry.refcount - 1 }, by simp [hmany], ?_⟩
      simp only
      omega
    · rw [if_neg hv] at hcount ⊢
      exact ⟨entry, rfl, hcount⟩

/-- A new object whose holdings are retained. -/
theorem addObject {object : Object} (hb : Backed h (object.holdings ++ h.holdings)) :
    Backed (h.addObject object).2 (h.addObject object).2.holdings := by
  rw [holdings_addObject]
  exact (hb.perm List.perm_append_comm).congr rfl rfl

end Backed

/-! ### What commands carry over -/

/-- Objects remain, of the class and with the elements that they were made with. -/
def Remains (h h' : Heap) : Prop :=
  ∀ o object, h.object o = .ok object →
    ∃ later, h'.object o = .ok later ∧ later.payload = object.payload ∧ later.elements = object.elements

namespace Remains

variable {h h' h'' : Heap}

theorem of_objects (ho : h'.objects = h.objects) : Remains h h' :=
  fun o object hobject => ⟨object, by rw [← hobject]; simp only [Heap.object, ho], rfl, rfl⟩

theorem trans (hr : Remains h h') (hr' : Remains h' h'') : Remains h h'' := by
  intro o object hobject
  obtain ⟨later, hlater, hpayload, helements⟩ := hr o object hobject
  obtain ⟨last, hlast, hpayload', helements'⟩ := hr' o later hlater
  exact ⟨last, hlast, hpayload'.trans hpayload, helements'.trans helements⟩

theorem setObjectRefcount (h : Heap) (named : ObjectRef) (change : Nat → Nat) :
    Remains h (h.setObjectRefcount named change) := by
  intro o object hobject
  have hget := object_eq_ok.mp hobject
  simp only [object_eq_ok, Heap.setObjectRefcount, Array.getElem?_modify, hget]
  split
  · exact ⟨_, rfl, rfl, rfl⟩
  · exact ⟨object, rfl, rfl, rfl⟩

theorem retain (h : Heap) (v : Value) : Remains h (h.retain v) := by
  obtain ⟨slot, rfl⟩ | ⟨o, rfl⟩ | hv := isCounted_cases v
  · exact .of_objects (congrArg Heap.objects (besideStrings_retain h slot) :)
  · exact setObjectRefcount h.countRetain o _
  · exact .of_objects (by rw [retain_of_not_counted h v hv])

theorem release (h : Heap) (v : Value) : Remains h (h.release v) := by
  obtain ⟨slot, rfl⟩ | ⟨o, rfl⟩ | hv := isCounted_cases v
  · exact .of_objects (congrArg Heap.objects (besideStrings_release h slot) :)
  · exact setObjectRefcount h.countRelease o _
  · exact .of_objects (by rw [release_of_not_counted h v hv])

theorem addObject (h : Heap) (new : Object) : Remains h (h.addObject new).2 :=
  fun _ object hobject => ⟨object, object_addObject.mpr (.inl hobject), rfl, rfl⟩

theorem setObject {named : ObjectRef} {old new : Object} (hold : h.object named = .ok old)
    (hpayload : new.payload = old.payload) (helements : new.elements = old.elements) :
    Remains h (h.setObject named new) := by
  intro o object hobject
  have hget := object_eq_ok.mp hobject
  simp only [object_eq_ok, Heap.setObject, Array.getElem?_setIfInBounds]
  by_cases ho : named.index.toNat = o.index.toNat
  · have hnamed : h.objects[named.index.toNat]? = some object := ho ▸ hget
    obtain rfl := Option.some.inj ((object_eq_ok.mp hold).symm.trans hnamed)
    obtain ⟨hlt, _⟩ := Array.getElem?_eq_some_iff.mp hnamed
    exact ⟨new, by simp [ho, ho ▸ hlt], hpayload, helements⟩
  · exact ⟨object, by simp [ho, hget], rfl, rfl⟩

end Remains

/-- What commands owe the strings of objects. -/
structure Carries (h h' : Heap) : Prop where
  backed : Backed h' h'.holdings
  /-- What an object holds reads as before. -/
  text : ∀ slot t, h.text (.heap slot) = .ok t → h'.Holds slot → h'.text (.heap slot) = .ok t
  remains : Remains h h'

variable {h h' : Heap}

theorem Carries.of_lasts (hb : Backed h' h'.holdings) (hl : Lasts h h') (hr : Remains h h') :
    Carries h h' where
  backed := hb
  text _ _ ht _ := hl.text_eq ht
  remains := hr

theorem Carries.refl (hb : Backed h h.holdings) : Carries h h := .of_lasts hb (.refl h) (.of_objects rfl)

/-- A new object whose holdings are retained. -/
theorem Carries.addObject {object : Object} (hb : Backed h' (object.holdings ++ h'.holdings))
    (hl : Lasts h h') (hr : Remains h h') : Carries h (h'.addObject object).2 :=
  .of_lasts hb.addObject (hl.trans (.of_slots fun _ => rfl)) (hr.trans (.addObject h' object))

theorem exists_entry_of_isLive {v : Value} (hlive : ∀ s, v = .string s → h.isLive s = true) {slot : UInt32}
    (hv : v = .string (.heap slot)) : ∃ entry, h.slot? slot = some entry :=
  (isLive_heap h slot).mp (hlive _ hv)

theorem carries_newOfClass (hb : Backed h h.holdings) {payload : ObjectClass}
    (hpayload : ∀ v ∈ payload.values, v.isCounted = false) :
    Carries h ((newOfClass payload).runOn h).2 := by
  have hadded : Backed h (({ payload } : Object).holdings ++ h.holdings) := by
    simpa [Object.holdings] using hb.uncounted hpayload
  exact .addObject hadded (.refl h) (.of_objects rfl)

theorem carries_newStringObject (hb : Backed h h.holdings) {s : StringRef} (hs : h.isLive s = true) :
    Carries h (h.newStringObject s).2 := by
  have hlive : ∀ s', Value.string s = .string s' → h.isLive s' = true :=
    fun s' heq => Value.string.inj heq ▸ hs
  have hretained := hb.retain fun slot => exists_entry_of_isLive hlive
  rw [← holdings_retain h (.string s)] at hretained
  have hadded : Backed (h.retain (.string s))
      (({ payload := .string s } : Object).holdings ++ (h.retain (.string s)).holdings) := hretained
  exact .addObject hadded (.retain h _) (.retain h _)

theorem Backed.retainAll {values elements : List Value} (hb : Backed h values)
    (hlive : ∀ s, .string s ∈ elements → h.isLive s = true) :
    Backed (elements.foldl Heap.retain h) (elements ++ values) := by
  induction elements generalizing h values with
  | nil => exact hb
  | cons v rest ih =>
    have hv : ∀ s, v = .string s → h.isLive s = true := fun s heq => hlive s (heq ▸ List.mem_cons_self)
    have hretained := hb.retain fun slot => exists_entry_of_isLive hv
    have hrest : ∀ s, .string s ∈ rest → (h.retain v).isLive s = true :=
      fun s hs => (Lasts.retain h v).isLive (hlive s (List.mem_cons_of_mem v hs))
    exact (ih hretained hrest).perm List.perm_middle

theorem foldl_retain (h : Heap) (values : List Value) :
    Lasts h (values.foldl Heap.retain h) ∧ Remains h (values.foldl Heap.retain h) ∧
      (values.foldl Heap.retain h).holdings = h.holdings := by
  induction values generalizing h with
  | nil => exact ⟨.refl h, .of_objects rfl, rfl⟩
  | cons v rest ih =>
    obtain ⟨hlasts, hremains, hholdings⟩ := ih (h.retain v)
    exact ⟨(Lasts.retain h v).trans hlasts, (Remains.retain h v).trans hremains,
      hholdings.trans (holdings_retain h v)⟩

theorem carries_newArray (hb : Backed h h.holdings) {elements : List Value}
    (hlive : ∀ s, .string s ∈ elements → h.isLive s = true) : Carries h (h.newArray elements).2 := by
  obtain ⟨hlasts, hremains, hholdings⟩ := foldl_retain h elements
  have hretained := hb.retainAll hlive
  rw [← hholdings] at hretained
  have hadded : Backed (elements.foldl Heap.retain h)
      (({ payload := .array, elements } : Object).holdings ++ (elements.foldl Heap.retain h).holdings) := by
    simpa [Object.holdings, ObjectClass.values] using hretained
  exact .addObject hadded hlasts hremains

theorem carries_allocate (hb : Backed h h.holdings) (t : Text) : Carries h (h.allocate t).2 := by
  have hobjects : (h.allocate t).2.objects = h.objects :=
    (congrArg Heap.objects (besideStrings_allocate h t) :)
  refine .of_lasts ?_ (.allocate hb.sound t) (.of_objects hobjects)
  rw [holdings, hobjects]
  exact hb.frame (.allocate hb.sound t)

/-- A call leaves objects as they are, and leaves alone what they hold. -/
theorem carries_call (hb : Backed h h.holdings) (c : Call) : Carries h (c.run.runOn h).2 := by
  have hf := (c.run_settled h).frame hb.sound
  have hholdings : (c.run.runOn h).2.holdings = h.holdings := by rw [holdings, hf.objects, holdings]
  refine ⟨hholdings ▸ hb.frame hf, fun slot t ht hholds => ?_, .of_objects hf.objects⟩
  obtain ⟨entry, hslot, rfl⟩ := text_heap_eq_ok.mp ht
  rw [Holds, hholdings] at hholds
  obtain ⟨entry', hslot', hcount⟩ := hb.exists_entry hholds
  obtain rfl := Option.some.inj (hslot.symm.trans hslot')
  exact text_heap_eq_ok.mpr ⟨entry, hf.held slot entry hslot hcount, rfl⟩

/-! ### Stores into objects -/

theorem carries_setHook (hb : Backed h h.holdings) (o : ObjectRef) (m : Method) (hook : Hook) :
    Carries h ((setHook o m hook).runOn h).2 := by
  simp only [setHook, updateObject, runOn_bind, runOn_ask]
  cases hold : h.object o with
  | error e => exact .refl hb
  | ok old =>
    have hpayload : (old.withHook m hook).payload = old.payload := by cases m <;> rfl
    have helements : (old.withHook m hook).elements = old.elements := by cases m <;> rfl
    have hsame : (old.withHook m hook).holdings = old.holdings := by cases m <;> rfl
    have hperm := holdings_setObject hold (old.withHook m hook)
    rw [hsame, List.perm_append_left_iff] at hperm
    exact .of_lasts ((hb.perm hperm.symm).congr rfl rfl) (.of_slots fun _ => rfl)
      (.setObject hold hpayload helements)

/-- Setting a property puts one value in another's place or adds one. -/
theorem map_insertProperty_perm (key : List UInt16) (v : Value) (ps : List (List UInt16 × Value)) :
    ((ps.lookup key).toList ++ (Object.insertProperty key v ps).map (·.2)).Perm (v :: ps.map (·.2)) := by
  induction ps with
  | nil => exact .refl _
  | cons p rest ih =>
    obtain ⟨name, w⟩ := p
    by_cases hname : name = key
    · simpa [Object.insertProperty, hname] using List.Perm.swap v w (rest.map (·.2))
    · have hother : (key == name) = false := beq_eq_false_iff_ne.mpr (Ne.symm hname)
      simp only [Object.insertProperty, hname, if_false, List.lookup_cons, hother, List.map_cons]
      exact List.perm_middle.trans ((ih.cons w).trans (.swap v w _))

theorem holdings_withProperty_perm (object : Object) (key : List UInt16) (v : Value) :
    ((object.property? key).toList ++ (object.withProperty key v).holdings).Perm (v :: object.holdings) :=
  (List.perm_append_comm_assoc _ _ _).trans
    (((map_insertProperty_perm key v object.properties).append_left _).trans List.perm_middle)

/-- Storing a property in an object adds the value to the holdings and takes the old one away. -/
theorem holdings_setProperty_perm {o : ObjectRef} {old : Object} (hold : h.object o = .ok old)
    (key : List UInt16) (v : Value) :
    ((old.property? key).toList ++ (h.setObject o (old.withProperty key v)).holdings).Perm
      (v :: h.holdings) := by
  have hobject := holdings_withProperty_perm old key v
  have hheap := holdings_setObject hold (old.withProperty key v)
  refine (List.perm_append_left_iff old.holdings).mp ?_
  refine (List.perm_append_comm_assoc _ _ _).trans ((hheap.append_left _).trans ?_)
  rw [← List.append_assoc]
  exact (hobject.append_right _).trans List.perm_middle.symm

/-- A release leaves the text of what is alive after it. -/
theorem text_release (v : Value) {slot : UInt32} {t : Text} (ht : h.text (.heap slot) = .ok t)
    (hlive : (h.release v).isLive (.heap slot) = true) : (h.release v).text (.heap slot) = .ok t := by
  obtain ⟨entry, hslot, rfl⟩ := text_heap_eq_ok.mp ht
  obtain ⟨later, hlater⟩ := (isLive_heap _ slot).mp hlive
  refine text_heap_eq_ok.mpr ⟨later, hlater, ?_⟩
  rw [slot?_release, hslot] at hlater
  split at hlater
  · obtain ⟨_, hkept⟩ := Option.ite_none_left_eq_some.mp hlater
    obtain rfl := Option.some.inj hkept
    rfl
  · obtain rfl := Option.some.inj hlater
    rfl

/-- A new value is retained, then stored, and the old one is released if no lookup has failed. -/
theorem carries_setProperty (hb : Backed h h.holdings) (o : ObjectRef) (key : Text) {v : Value}
    (hv : ∀ s, v = .string s → h.isLive s = true) : Carries h ((setProperty o key v).runOn h).2 := by
  have hretained := hb.retain fun slot => exists_entry_of_isLive hv
  rw [← holdings_retain h v] at hretained
  simp only [setProperty, runOn_bind, runOn_change, runOn_ask]
  cases hold : (h.retain v).object o with
  | error e => exact .of_lasts hretained.tail (.retain h v) (.retain h v)
  | ok old =>
    have hstored : Backed ((h.retain v).setObject o (old.withProperty key.units v)) _ :=
      (hretained.perm (holdings_setProperty_perm hold key.units v).symm).congr rfl rfl
    have hlasts : Lasts h ((h.retain v).setObject o (old.withProperty key.units v)) :=
      (Lasts.retain h v).trans (.of_slots fun _ => rfl)
    have hremains : Remains h ((h.retain v).setObject o (old.withProperty key.units v)) :=
      (Remains.retain h v).trans (.setObject hold rfl rfl)
    cases hproperty : old.property? key.units with
    | none =>
      rw [hproperty] at hstored
      simp only [hproperty]
      exact .of_lasts hstored hlasts hremains
    | some replaced =>
      rw [hproperty] at hstored
      simp only [hproperty]
      have hreleased : Backed _ _ := hstored.release
      rw [← holdings_release _ replaced] at hreleased
      refine ⟨hreleased, fun slot t ht hholds => ?_, hremains.trans (.release _ replaced)⟩
      obtain ⟨entry, hslot, _⟩ := hreleased.exists_entry hholds
      exact text_release replaced (hlasts.text_eq ht) ((isLive_heap _ slot).mpr ⟨entry, hslot⟩)

/-! ### Whole programs -/

theorem carries_toObject (hb : Backed h h.holdings) {v : Value}
    (hv : ∀ s, v = .string s → h.isLive s = true) : Carries h ((toObject v).runOn h).2 := by
  cases v with
  | int32 _ | double _ | nan | infinity _ =>
    exact carries_newOfClass hb fun w hw => by
      obtain rfl := List.mem_singleton.mp hw
      rfl
  | boolean b => exact carries_newOfClass hb fun w hw => nomatch hw
  | string s => exact carries_newStringObject hb (hv s rfl)
  | _ => exact .refl hb

/-- One lemma for each command. -/
theorem carries_step (hb : Backed h h.holdings) {c : HeapCommand} (hc : h.Allows c) : Carries h
    (h.step c) := by
  cases c with
  | allocate t => exact carries_allocate hb t
  | newObject => exact carries_newOfClass hb fun v hv => nomatch hv
  | newArray elements => exact carries_newArray hb hc
  | newStringObject s => exact carries_newStringObject hb (hc s List.mem_cons_self)
  | setProperty o key v =>
    exact carries_setProperty hb o key fun s hv => hc s (by simp [HeapCommand.stored, hv])
  | setHook o m hook => exact carries_setHook hb o m hook
  | toObject v => exact carries_toObject hb fun s hv => hc s (by simp [HeapCommand.stored, hv])
  | call c => exact carries_call hb c

theorem backed_new (settings : HeapSettings) : Backed (new settings) (new settings).holdings where
  sound := sound_new settings
  held slot hmem := by simp [holdings, new] at hmem

theorem Heap.run_append (h : Heap) (before during : List HeapCommand) :
    h.run (before ++ during) = (h.run before).run during := List.foldl_append

theorem Heap.allowsAll_append {before during : List HeapCommand} :
    h.AllowsAll (before ++ during) ↔ h.AllowsAll before ∧ (h.run before).AllowsAll during := by
  induction before generalizing h with
  | nil => simp [AllowsAll, run]
  | cons c rest ih =>
    rw [List.cons_append, AllowsAll, AllowsAll, ih, and_assoc]
    rfl

theorem backed_run (hb : Backed h h.holdings) {commands : List HeapCommand} (hc : h.AllowsAll commands) :
    Backed (h.run commands) (h.run commands).holdings := by
  induction commands generalizing h with
  | nil => exact hb
  | cons c rest ih => exact ih (carries_step hb hc.1).backed hc.2

theorem remains_run (hb : Backed h h.holdings) {commands : List HeapCommand} (hc : h.AllowsAll commands) :
    Remains h (h.run commands) := by
  induction commands generalizing h with
  | nil => exact .of_objects rfl
  | cons c rest ih =>
    have hstep := carries_step hb hc.1
    exact hstep.remains.trans (ih hstep.backed hc.2)

theorem text_run (hb : Backed h h.holdings) {commands : List HeapCommand} (hc : h.AllowsAll commands)
    {slot : UInt32} {t : Text} (ht : h.text (.heap slot) = .ok t) (hholds : h.HoldsThroughout slot commands) :
    (h.run commands).text (.heap slot) = .ok t := by
  induction commands generalizing h with
  | nil => exact ht
  | cons c rest ih =>
    have hstep := carries_step hb hc.1
    exact ih hstep.backed hc.2 (hstep.text slot t ht hholds.1) hholds.2

/-- What an object is made of it holds throughout. -/
theorem holdsThroughout_of_remains (hb : Backed h h.holdings) {commands : List HeapCommand}
    (hc : h.AllowsAll commands) {o : ObjectRef} {object : Object} (ho : h.object o = .ok object)
    {slot : UInt32} (hmem : .string (.heap slot) ∈ object.payload.values ++ object.elements) :
    h.HoldsThroughout slot commands := by
  induction commands generalizing h object with
  | nil => trivial
  | cons c rest ih =>
    have hstep := carries_step hb hc.1
    obtain ⟨later, hlater, hpayload, helements⟩ := hstep.remains o object ho
    rw [← hpayload, ← helements] at hmem
    refine ⟨?_, ih hstep.backed hc.2 hlater hmem⟩
    refine List.mem_flatMap.mpr ⟨later, ?_, List.mem_append_left _ hmem⟩
    exact Array.mem_toList_iff.mpr (mem_of_object hlater)

/-! ### Counts -/

theorem countsRetains_setProperty (hc : h.CountsRetains) (o : ObjectRef) (key : Text) (v : Value) :
    ((setProperty o key v).runOn h).2.CountsRetains := by
  simp only [setProperty, runOn_bind, runOn_change, runOn_ask]
  cases hold : (h.retain v).object o with
  | error e => exact hc.retain v
  | ok old =>
    have hstored : ((h.retain v).setObject o (old.withProperty key.units v)).CountsRetains :=
      (hc.retain v).setObject hold rfl
    cases hproperty : old.property? key.units with
    | none =>
      simp only [hproperty]
      exact hstored
    | some replaced =>
      simp only [hproperty]
      exact hstored.release replaced

theorem countsRetains_setHook (hc : h.CountsRetains) (o : ObjectRef) (m : Method) (hook : Hook) :
    ((setHook o m hook).runOn h).2.CountsRetains := by
  simp only [setHook, updateObject, runOn_bind, runOn_ask]
  cases hold : h.object o with
  | error e => exact hc
  | ok old => exact hc.setObject hold (by cases m <;> rfl)

theorem countsRetains_toObject (hc : h.CountsRetains) (v : Value) : ((toObject v).runOn h).2.CountsRetains := by
  cases v with
  | int32 _ | double _ | nan | infinity _ | boolean _ => exact hc.addObject rfl
  | string s => exact (hc.retain _).addObject rfl
  | _ => exact hc

theorem countsRetains_step (hc : h.CountsRetains) (hs : h.Sound) (c : HeapCommand) : (h.step c).CountsRetains := by
  cases c with
  | allocate t => exact hc.allocate t
  | newObject => exact hc.addObject rfl
  | newArray elements => exact (hc.retainAll elements).addObject rfl
  | newStringObject s => exact (hc.retain _).addObject rfl
  | setProperty o key v => exact countsRetains_setProperty hc o key v
  | setHook o m hook => exact countsRetains_setHook hc o m hook
  | toObject v => exact countsRetains_toObject hc v
  | call c => exact hc.settles hs (c.run_settled h)

theorem countsRetains_run (hc : h.CountsRetains) (hb : Backed h h.holdings) {commands : List HeapCommand}
    (hallowed : h.AllowsAll commands) : (h.run commands).CountsRetains := by
  induction commands generalizing h with
  | nil => exact hc
  | cons c rest ih => exact ih (countsRetains_step hc hb.sound c) (carries_step hb hallowed.1).backed hallowed.2

/-- At every point of every program from an empty heap no count is above the number of retains so far, so that a
program of less than `2 ^ 32` retains could count in words. A string that an object holds is alive and retained.
From then on, or from the moment before it is stored, it keeps its text as long as an object holds it. A wrapper or
an array is made of the same values for ever, and they read the same for ever. -/
theorem run_keeps_held (settings : HeapSettings) (before during : List HeapCommand)
    (hc : (new settings).AllowsAll (before ++ during)) :
    ((new settings).run before).CountsRetains ∧
    (∀ slot, ((new settings).run before).Holds slot →
      ∃ entry, ((new settings).run before).slot? slot = some entry ∧ 1 ≤ entry.refcount) ∧
    (∀ slot t, ((new settings).run before).text (.heap slot) = .ok t →
      ((new settings).run before).HoldsThroughout slot during →
      ((new settings).run (before ++ during)).text (.heap slot) = .ok t) ∧
    ∀ o object, ((new settings).run before).object o = .ok object →
      ∃ later, ((new settings).run (before ++ during)).object o = .ok later ∧
        later.payload = object.payload ∧ later.elements = object.elements ∧
        ∀ s, .string s ∈ object.payload.values ++ object.elements →
          ((new settings).run (before ++ during)).text s = ((new settings).run before).text s := by
  obtain ⟨hbefore, hduring⟩ := allowsAll_append.mp hc
  have hb := backed_run (backed_new settings) hbefore
  rw [run_append]
  refine ⟨countsRetains_run (.new settings) (backed_new settings) hbefore, fun slot hholds => hb.exists_entry hholds,
    fun slot t ht hholds => text_run hb hduring ht hholds, ?_⟩
  intro o object ho
  obtain ⟨later, hlater, hpayload, helements⟩ := remains_run hb hduring o object ho
  refine ⟨later, hlater, hpayload, helements, fun s hs => ?_⟩
  cases s with
  | builtin b => rfl
  | heap slot =>
    have hholds := holdsThroughout_of_remains hb hduring ho hs
    have hmem : ((new settings).run before).Holds slot :=
      List.mem_flatMap.mpr ⟨object, Array.mem_toList_iff.mpr (mem_of_object ho), List.mem_append_left _ hs⟩
    obtain ⟨entry, hslot, _⟩ := hb.exists_entry hmem
    have ht : ((new settings).run before).text (.heap slot) = .ok entry.text :=
      text_heap_eq_ok.mpr ⟨entry, hslot, rfl⟩
    rw [ht, text_run hb hduring ht hholds]

/-- A string that a wrapper, an array and a property share, and that is replaced in the property. -/
def sharing : List HeapCommand :=
  [.allocate (Text.ofString "a"), .newStringObject (.heap 0), .newArray [.string (.heap 0)],
    .setProperty ⟨1⟩ (Text.ofString "p") (.string (.heap 0))]

def replacing : List HeapCommand :=
  [.setProperty ⟨1⟩ (Text.ofString "p") .null, .call (.operator .add (.object ⟨0⟩) (.object ⟨1⟩))]

theorem run_keeps_held_sharing :
    (new {}).AllowsAll (sharing ++ replacing) ∧
      ((new {}).run (sharing ++ replacing)).text (.heap 0) = .ok (Text.ofString "a") := by
  have hallowed : (new {}).AllowsAll (sharing ++ replacing) := by
    refine ⟨?_, ?_, ?_, ?_, ?_, ?_, trivial⟩ <;> intro s hs <;> simp [HeapCommand.stored] at hs
    all_goals
      subst hs
      decide +kernel
  have hkeeps := run_keeps_held {} sharing replacing hallowed
  obtain ⟨later, _, _, _, htext⟩ := hkeeps.2.2.2 ⟨0⟩ { payload := .string (.heap 0) } (by decide +kernel)
  refine ⟨hallowed, ?_⟩
  rw [htext (.heap 0) (by simp [ObjectClass.values])]
  decide +kernel

/-- A method that answers with a string, a conversion that retains and releases the answer, and a new string
in its place. -/
def outliving : List HeapCommand :=
  [.allocate (Text.ofString "x"), .newObject, .setHook ⟨0⟩ .toString (.answer (.string (.heap 0))),
    .call (.operator .less (.object ⟨0⟩) (.int32 1)), .allocate (Text.ofString "y")]

/-- The string is alive when the method is installed, gone after a comparison of the object, and in the end
the object is converted to another text than before. -/
theorem hook_outlives_string :
    (new {}).AllowsAll outliving ∧
      (((new {}).run (outliving.take 3)).object ⟨0⟩).map (·.toString?) =
        .ok (some (.answer (.string (.heap 0)))) ∧
      ((new {}).run (outliving.take 3)).text (.heap 0) = .ok (Text.ofString "x") ∧
      ((new {}).run (outliving.take 4)).isLive (.heap 0) = false ∧
      ((toPrimitive (.object ⟨0⟩) .string).runOn ((new {}).run outliving)).1 = .ok (.string (.heap 0)) ∧
      ((new {}).run outliving).text (.heap 0) = .ok (Text.ofString "y") := by
  have hallowed : (new {}).AllowsAll outliving := by
    refine ⟨?_, ?_, ?_, ?_, ?_, trivial⟩ <;> intro s hs <;> simp [HeapCommand.stored, Hook.values] at hs
    subst hs
    decide +kernel
  exact ⟨hallowed, by decide +kernel⟩

end ScriptCore
