import ScriptCore.Proofs.Growth

/-! Heaps that conversions cannot tell apart.

A conversion reads the texts of strings and the objects of the heap, and changes the heap only by allocating,
retaining, releasing and noting what it converts. So a relation that such changes preserve, between heaps that
look alike (`Indiscernible`), is preserved by all conversions, and they have one outcome from related heaps
(`HeapM.Blind`). There are two such relations here: heaps with the same contents, whatever was counted and
noted (`SameContents`), and one heap under two semantics (`SameUnder`). -/
namespace ScriptCore

open Heap HeapM

variable {α β : Type} {h g : Heap}

/-! ### Heaps that look alike -/

theorem Heap.primitiveToNumber_congr (htext : h.text = g.text) (p : Value) :
    h.primitiveToNumber p = g.primitiveToNumber p := by
  cases p with
  | string s => rw [primitiveToNumber, primitiveToNumber, htext]
  | _ => rfl

/-- The heaps have the same texts and objects. -/
structure Heap.LooksLike (h g : Heap) : Prop where
  text : h.text = g.text
  object : h.object = g.object

namespace Heap.LooksLike

variable (hl : h.LooksLike g)
include hl

theorem objectClass (o : ObjectRef) : h.objectClass o = g.objectClass o := by
  rw [Heap.objectClass, Heap.objectClass, hl.object]

theorem searchChain (question : Object → Option α) (links : Nat) (o : ObjectRef) :
    h.searchChain question links o = g.searchChain question links o :=
  searchChain_congr (congrFun hl.object) question links o

theorem findHook (o : ObjectRef) (m : Method) : h.findHook o m = g.findHook o m := hl.searchChain _ _ o

theorem joinedText (elements : List Value) : h.joinedText elements = g.joinedText elements :=
  joinedText_congr fun s _ => congrFun hl.text s

theorem primitiveToNumber (p : Value) : h.primitiveToNumber p = g.primitiveToNumber p :=
  primitiveToNumber_congr hl.text p

theorem sameValue (x y : Value) : h.sameValue x y = g.sameValue x y := by
  have hclass : h.objectClass = g.objectClass := funext hl.objectClass
  unfold Heap.sameValue
  rw [hl.text, hclass]

end Heap.LooksLike

/-! ### Relations that conversions preserve -/

/-- Related heaps look alike and are related after any change that a conversion may make. -/
structure Indiscernible (R : Heap → Heap → Prop) : Prop where
  looks : ∀ {h g}, R h g → h.LooksLike g
  allocate : ∀ {h g}, R h g → ∀ t, (h.allocate t).1 = (g.allocate t).1 ∧ R (h.allocate t).2 (g.allocate t).2
  retain : ∀ {h g}, R h g → ∀ v, R (h.retain v) (g.retain v)
  release : ∀ {h g}, R h g → ∀ v, R (h.release v) (g.release v)
  logConversion : ∀ {h g}, R h g → ∀ o hint, R (h.logConversion o hint) (g.logConversion o hint)

/-- From related heaps the computation has one outcome, and ends in related heaps. -/
def HeapM.Blind (R : Heap → Heap → Prop) (a : HeapM α) : Prop :=
  ∀ h g, R h g → (a.runOn h).1 = (a.runOn g).1 ∧ R (a.runOn h).2 (a.runOn g).2

namespace HeapM.Blind

variable {R : Heap → Heap → Prop}

theorem pure (x : α) : (Pure.pure x : HeapM α).Blind R := fun _ _ hR => ⟨rfl, hR⟩

theorem throw (e : Error) : (MonadExcept.throw e : HeapM α).Blind R := fun _ _ hR => ⟨rfl, hR⟩

theorem ask {question : Heap → Except Error α} (hq : ∀ h g, R h g → question h = question g) :
    (HeapM.ask question).Blind R := fun h g hR => ⟨hq h g hR, hR⟩

theorem bind {a : HeapM α} {f : α → HeapM β} (ha : a.Blind R) (hf : ∀ x, (f x).Blind R) :
    (a >>= f).Blind R := by
  intro h g hR
  obtain ⟨houtcome, hheaps⟩ := ha h g hR
  rw [runOn_bind, runOn_bind]
  cases hrun : a.runOn h with
  | mk outcome h' =>
    cases hrun' : a.runOn g with
    | mk outcome' g' =>
      rw [hrun, hrun'] at houtcome hheaps
      obtain rfl : outcome = outcome' := houtcome
      cases outcome with
      | error e => exact ⟨rfl, hheaps⟩
      | ok x => exact hf x h' g' hheaps

theorem map {a : HeapM α} (ha : a.Blind R) (f : α → β) : (a >>= fun x => Pure.pure (f x)).Blind R :=
  ha.bind fun x => pure (f x)

section Brackets
variable (hI : Indiscernible R)
include hI

theorem newString (t : Text) : (HeapM.newString t).Blind R := fun _ _ hR =>
  ⟨congrArg Except.ok (hI.allocate hR t).1, (hI.allocate hR t).2⟩

theorem objectClass (o : ObjectRef) : (HeapM.ask (·.objectClass o)).Blind R :=
  ask fun _ _ hR => (hI.looks hR).objectClass o

theorem transient (v : Value) {body : HeapM α} (hbody : body.Blind R) : (withTransient v body).Blind R := by
  intro h g hR
  obtain ⟨houtcome, hheaps⟩ := hbody _ _ (hI.retain hR v)
  exact ⟨houtcome, hI.release hheaps v⟩

end Brackets
end HeapM.Blind

/-! ### Conversions -/

section Conversions
variable {R : Heap → Heap → Prop} (hI : Indiscernible R)
include hI

theorem blind_dateToString (o : ObjectRef) : (dateToString o).Blind R := by
  refine (Blind.objectClass hI o).bind fun payload => ?_
  cases payload with
  | date time =>
    cases htext : Calendar.timeTextBy Calendar.gregorian time with
    | some text =>
      simp only [htext]
      exact .newString hI _
    | none =>
      simp only [htext]
      exact .pure _
  | _ => exact .throw _

theorem blind_intrinsicValueOf (o : ObjectRef) : (intrinsicValueOf o).Blind R := by
  refine (Blind.objectClass hI o).bind fun payload => ?_
  cases payload <;> exact .pure _

theorem blind_intrinsicToString (o : ObjectRef) : (intrinsicToString o).Blind R := by
  refine (Blind.objectClass hI o).bind fun payload => ?_
  cases payload with
  | date time => exact (blind_dateToString hI o).map _
  | array =>
    refine (Blind.ask fun h g hR => ?_).bind fun text => (Blind.newString hI text).map _
    have hlooks := hI.looks hR
    rw [hlooks.object, funext hlooks.joinedText]
  | object | function _ => exact (Blind.newString hI _).map _
  | _ => exact .pure _

theorem blind_runHook (o : ObjectRef) (hook : Hook) : (runHook o hook).Blind R := by
  cases hook with
  | freshString text => exact (Blind.newString hI _).map _
  | throws message => exact .throw _
  | _ => exact .pure _

theorem blind_callMethod (o : ObjectRef) (m : Method) : (callMethod o m).Blind R := by
  have hfind : (HeapM.ask (·.findHook o m)).Blind R := .ask fun h g hR => (hI.looks hR).findHook o m
  refine hfind.bind fun hook? => ?_
  cases hook? with
  | some hook => exact blind_runHook hI o hook
  | none =>
    cases m with
    | valueOf => exact blind_intrinsicValueOf hI o
    | toString => exact blind_intrinsicToString hI o

theorem blind_defaultValue (o : ObjectRef) (hint : Hint) : (defaultValue o hint).Blind R := by
  have hnoted : (HeapM.change (·.logConversion o hint)).Blind R :=
    fun _ _ hR => ⟨rfl, hI.logConversion hR o hint⟩
  refine hnoted.bind fun _ => (blind_callMethod hI o _).bind fun v => ?_
  split
  · exact .pure v
  refine (blind_callMethod hI o _).bind fun v => ?_
  split
  · exact .pure v
  · exact .throw _

theorem blind_toPrimitive (v : Value) (hint : Hint) : (toPrimitive v hint).Blind R := by
  cases v with
  | object o =>
    rw [toPrimitive_object]
    refine (Blind.objectClass hI o).bind fun payload => ?_
    split
    · exact (blind_dateToString hI o).map _
    · exact blind_defaultValue hI o hint
  | _ => exact .pure _

theorem blind_toPrimitiveUnboxed (v : Value) : (toPrimitiveUnboxed v).Blind R := by
  cases v with
  | object o =>
    refine (Blind.objectClass hI o).bind fun payload => ?_
    cases payload with
    | number n => exact .pure n
    | boolean b => exact .pure _
    | _ => exact blind_toPrimitive hI _ _
  | _ => exact .pure _

theorem blind_primitiveToNumber (p : Value) : (HeapM.ask (·.primitiveToNumber p)).Blind R :=
  .ask fun _ _ hR => (hI.looks hR).primitiveToNumber p

theorem blind_toNumber (v : Value) : (toNumber v).Blind R := by
  cases v with
  | object o => exact (blind_toPrimitive hI _ _).bind fun p => .transient hI p (blind_primitiveToNumber hI p)
  | _ => exact blind_primitiveToNumber hI _

end Conversions

/-! ### Heaps with the same contents -/

namespace Heap

/-- The heap without what was counted and noted and without its semantics. -/
def contents (h : Heap) : Heap := { strings := h.strings, freeSlots := h.freeSlots, objects := h.objects }

/-- The heaps differ at most in what was counted and noted and in their semantics. -/
def SameContents (h g : Heap) : Prop := h.contents = g.contents

section Contents
variable (h : Heap) (slot : UInt32)

theorem contents_setRefcount (change : Nat → Nat) :
    (h.setRefcount slot change).contents = h.contents.setRefcount slot change := by
  have hslot : h.contents.slot? = h.slot? := rfl
  simp only [setRefcount, hslot]
  split <;> rfl

theorem contents_freeSlot : (h.freeSlot slot).contents = (h.contents.freeSlot slot).contents := by
  have hslot : h.contents.slot? = h.slot? := rfl
  simp only [freeSlot, hslot]
  split <;> rfl

theorem contents_allocate (t : Text) :
    (h.allocate t).1 = (h.contents.allocate t).1 ∧
      (h.allocate t).2.contents = (h.contents.allocate t).2.contents := by
  have hfree : h.contents.freeSlots = h.freeSlots := rfl
  simp only [allocate, hfree]
  split <;> exact ⟨rfl, rfl⟩

end Contents

namespace SameContents

variable (hc : h.SameContents g)
include hc

theorem stringRefcount? : h.stringRefcount? = g.stringRefcount? := (congrArg Heap.stringRefcount? hc :)

theorem looksLike : h.LooksLike g where
  text := (congrArg Heap.text hc :)
  object := (congrArg Heap.object hc :)

theorem allocate (t : Text) :
    (h.allocate t).1 = (g.allocate t).1 ∧ (h.allocate t).2.SameContents (g.allocate t).2 := by
  rw [SameContents, (contents_allocate h t).1, (contents_allocate h t).2, (contents_allocate g t).1,
    (contents_allocate g t).2, hc]
  exact ⟨rfl, rfl⟩

theorem setRefcount (slot : UInt32) (change : Nat → Nat) :
    (h.setRefcount slot change).SameContents (g.setRefcount slot change) := by
  rw [SameContents, contents_setRefcount, contents_setRefcount, hc]

theorem freeSlot (slot : UInt32) : (h.freeSlot slot).SameContents (g.freeSlot slot) := by
  rw [SameContents, contents_freeSlot, contents_freeSlot g, hc]

theorem setObjectRefcount (o : ObjectRef) (change : Nat → Nat) :
    (h.setObjectRefcount o change).SameContents (g.setObjectRefcount o change) :=
  (congrArg (·.setObjectRefcount o change) hc :)

theorem retain (v : Value) : (h.retain v).SameContents (g.retain v) := by
  unfold Heap.retain
  split
  · exact setRefcount (h := h.countRetain) (g := g.countRetain) hc _ _
  · exact setObjectRefcount (h := h.countRetain) (g := g.countRetain) hc _ _
  · exact hc

theorem release (v : Value) : (h.release v).SameContents (g.release v) := by
  unfold Heap.release
  split
  · rename_i slot
    have hcount := setRefcount (h := h.countRelease) (g := g.countRelease) hc slot (· - 1)
    simp only [hcount.stringRefcount?]
    split_ifs
    · exact hcount.freeSlot slot
    · exact hcount
  · exact setObjectRefcount (h := h.countRelease) (g := g.countRelease) hc _ _
  · exact hc

end SameContents

theorem indiscernible_sameContents : Indiscernible SameContents where
  looks hc := hc.looksLike
  allocate hc t := hc.allocate t
  retain hc v := hc.retain v
  release hc v := hc.release v
  logConversion hc _ _ := hc

/-! ### Heaps under other semantics -/

/-- The heap with other semantics. -/
def under (s : Semantics) (h : Heap) : Heap := { h with semantics := s }

/-- One heap under two semantics. -/
inductive SameUnder (s t : Semantics) : Heap → Heap → Prop where
  | mk (h : Heap) : SameUnder s t (h.under s) (h.under t)

section Under
variable (s : Semantics) (h : Heap) (slot : UInt32)

theorem under_setRefcount (change : Nat → Nat) :
    (h.under s).setRefcount slot change = (h.setRefcount slot change).under s := by
  have hslot : (h.under s).slot? = h.slot? := rfl
  simp only [setRefcount, hslot]
  split <;> rfl

theorem under_freeSlot : (h.under s).freeSlot slot = (h.freeSlot slot).under s := by
  have hslot : (h.under s).slot? = h.slot? := rfl
  simp only [freeSlot, hslot]
  split <;> rfl

theorem under_allocate (t : Text) : (h.under s).allocate t = ((h.allocate t).1, (h.allocate t).2.under s) := by
  have hfree : (h.under s).freeSlots = h.freeSlots := rfl
  simp only [allocate, hfree]
  split <;> rfl

theorem under_retain (v : Value) : (h.under s).retain v = (h.retain v).under s := by
  unfold retain
  split
  · exact under_setRefcount s h.countRetain _ _
  · rfl
  · rfl

theorem under_release (v : Value) : (h.under s).release v = (h.release v).under s := by
  unfold release
  split
  · rename_i slot
    have hcount : (h.under s).countRelease.setRefcount slot (· - 1) =
        (h.countRelease.setRefcount slot (· - 1)).under s := under_setRefcount s h.countRelease slot _
    have hrefcount : ∀ k : Heap, (k.under s).stringRefcount? (.heap slot) = k.stringRefcount? (.heap slot) :=
      fun _ => rfl
    simp only [hcount, hrefcount, under_freeSlot]
    split <;> rfl
  · rfl
  · rfl

end Under

theorem indiscernible_sameUnder (s t : Semantics) : Indiscernible (SameUnder s t) where
  looks := by
    rintro _ _ ⟨h⟩
    exact ⟨rfl, rfl⟩
  allocate := by
    rintro _ _ ⟨h⟩ text
    rw [under_allocate, under_allocate]
    exact ⟨rfl, .mk _⟩
  retain := by
    rintro _ _ ⟨h⟩ v
    rw [under_retain, under_retain]
    exact .mk _
  release := by
    rintro _ _ ⟨h⟩ v
    rw [under_release, under_release]
    exact .mk _
  logConversion := by
    rintro _ _ ⟨h⟩ o hint
    exact .mk (h.logConversion o hint)

/-- What cannot tell two semantics apart ends in one heap under both. -/
theorem exists_runOn_under {s t : Semantics} {a : HeapM α} (ha : a.Blind (SameUnder s t)) (h : Heap) :
    ∃ (outcome : Except Error α) (k : Heap),
      a.runOn (h.under s) = (outcome, k.under s) ∧ a.runOn (h.under t) = (outcome, k.under t) := by
  obtain ⟨houtcome, hheaps⟩ := ha _ _ (.mk h)
  cases hrun : a.runOn (h.under s) with
  | mk outcome h' =>
    cases hrun' : a.runOn (h.under t) with
    | mk outcome' g' =>
      rw [hrun, hrun'] at houtcome hheaps
      obtain rfl : outcome = outcome' := houtcome
      obtain ⟨k⟩ := hheaps
      exact ⟨outcome, k, rfl, rfl⟩

end Heap
end ScriptCore
