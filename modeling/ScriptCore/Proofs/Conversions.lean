import ScriptCore.Conversion
import ScriptCore.Proofs.Computations

/-! How objects answer conversions, and what conversions leave behind.

A conversion of an object ends in one of three ways (`Answers`): it fails, it answers with a value that
was there before, or it answers with a new string, the only one it makes. What is there before is stored
in some object (`Stores`): nothing else than the payloads of wrappers and the answers of methods ever
comes out of a conversion. All conversions settle.

A conversion looks at objects and at the texts of the strings they store. In which of the three ways it
ends, and with which value or text, is therefore the same in every heap that shows the same of these
(`Replies`). -/
namespace ScriptCore

/-! ### Numbers -/

namespace Value

theorem isNumeric_ofDouble (d : Double) : (ofDouble d).isNumeric = true := by
  unfold ofDouble
  split
  · rfl
  · split <;> rfl

theorem isNumeric_ofNumber (d : Double) : (ofNumber d).isNumeric = true := by
  unfold ofNumber
  split
  · exact isNumeric_ofDouble _
  · split
    · split
      · rfl
      · exact isNumeric_ofDouble d
    · exact isNumeric_ofDouble d

theorem isPrimitive_of_isNumeric {v : Value} (hv : v.isNumeric = true) : v.isPrimitive = true := by
  cases v with
  | object _ | environment _ | function _ => cases hv
  | _ => rfl

theorem isCounted_of_isNumeric {v : Value} (hv : v.isNumeric = true) : v.isCounted = false := by
  cases v with
  | string _ | object _ => cases hv
  | _ => rfl

theorem isCounted_ofDouble (d : Double) : (ofDouble d).isCounted = false :=
  isCounted_of_isNumeric (isNumeric_ofDouble d)

theorem isObject_of_not_counted {v : Value} (hv : v.isCounted = false) : v.isObject = false := by
  cases v <;> simp_all [isCounted, isObject]

end Value

theorem Heap.isNumeric_of_primitiveToNumber {h : Heap} {v n : Value} (hn : h.primitiveToNumber v = .ok n) :
    n.isNumeric = true := by
  cases v with
  | string s =>
    unfold Heap.primitiveToNumber at hn
    cases ht : h.text s with
    | error e => simp [ht, bind, Except.bind] at hn
    | ok t =>
      have heq : t.toNumber = n := by simpa [ht, bind, Except.bind, pure, Except.pure] using hn
      rw [← heq, Text.toNumber]
      cases t.toDouble? with
      | none => rfl
      | some d => exact Value.isNumeric_ofNumber d
  | object _ | environment _ | function _ => cases hn
  | _ =>
    obtain rfl := Except.ok.inj hn
    rfl

/-- The number of a primitive value is no reference. -/
theorem Heap.isCounted_of_primitiveToNumber {h : Heap} {v n : Value} (hn : h.primitiveToNumber v = .ok n) :
    n.isCounted = false := Value.isCounted_of_isNumeric (isNumeric_of_primitiveToNumber hn)

/-! ### What objects store -/

def ObjectClass.values : ObjectClass → List Value
  | number v => [v]
  | string s => [.string s]
  | _ => []

def Hook.values : Hook → List Value
  | answer v => [v]
  | _ => []

/-- The values that an object leads to: its payload, its elements, its properties and what its methods
answer with. -/
def Object.values (o : Object) : List Value :=
  o.payload.values ++ o.elements ++ o.properties.map (·.2) ++ o.valueOf?.elim [] Hook.values ++
    o.toString?.elim [] Hook.values

namespace Heap

def Stores (h : Heap) (v : Value) : Prop := ∃ o ∈ h.objects, v ∈ o.values

variable {h : Heap} {α : Type}

theorem object_eq_ok {o : ObjectRef} {object : Object} :
    h.object o = .ok object ↔ h.objects[o.index.toNat]? = some object := by
  unfold Heap.object
  cases h.objects[o.index.toNat]? <;> simp

theorem object_congr {g : Heap} (hobjects : g.objects = h.objects) (o : ObjectRef) : g.object o = h.object o := by
  rw [object, object, hobjects]

theorem objectClass_congr {g : Heap} (hobjects : g.objects = h.objects) (o : ObjectRef) :
    g.objectClass o = h.objectClass o := by
  rw [objectClass, objectClass, object_congr hobjects]

theorem object_addObject {o : ObjectRef} {new object : Object} :
    (h.addObject new).2.object o = .ok object ↔
      h.object o = .ok object ∨ o.index.toNat = h.objects.size ∧ object = new := by
  simp only [object_eq_ok, addObject, Array.getElem?_push]
  split
  · rename_i hsize
    simp [hsize, eq_comm]
  · rename_i hsize
    simp [hsize]

theorem mem_of_object {o : ObjectRef} {object : Object} (ho : h.object o = .ok object) :
    object ∈ h.objects := by
  unfold Heap.object at ho
  split at ho
  · rename_i hget
    obtain rfl := Except.ok.inj ho
    exact Array.mem_of_getElem? hget
  · cases ho

theorem object_of_objectClass {o : ObjectRef} {payload : ObjectClass} (ho : h.objectClass o = .ok payload) :
    ∃ object, h.object o = .ok object ∧ object.payload = payload := by
  unfold objectClass at ho
  cases hobject : h.object o with
  | error e => simp [hobject, bind, Except.bind] at ho
  | ok object =>
    rw [hobject] at ho
    exact ⟨object, rfl, Except.ok.inj ho⟩

theorem exists_of_objectClass {o : ObjectRef} {payload : ObjectClass}
    (ho : h.objectClass o = .ok payload) : ∃ object ∈ h.objects, object.payload = payload := by
  obtain ⟨object, hobject, hpayload⟩ := object_of_objectClass ho
  exact ⟨object, mem_of_object hobject, hpayload⟩

/-- A chain answers with its first object or from the next one on. -/
theorem searchChain_step {question : Object → Option α} {links : Nat} {o : ObjectRef} {a : α}
    (ha : h.searchChain question links o = .ok (some a)) :
    (∃ object ∈ h.objects, question object = some a) ∨
      ∃ rest p, links = rest + 1 ∧ h.searchChain question rest p = .ok (some a) := by
  unfold searchChain at ha
  cases hobject : h.object o with
  | error e => simp [hobject, bind, Except.bind] at ha
  | ok object =>
    cases hq : question object with
    | some b =>
      have hb : b = a := by simpa [hobject, hq, bind, Except.bind, pure, Except.pure] using ha
      exact .inl ⟨object, mem_of_object hobject, hb ▸ hq⟩
    | none =>
      cases links with
      | zero => simp [hobject, hq, bind, Except.bind] at ha
      | succ rest =>
        cases hp : object.prototype? with
        | none => simp [hobject, hq, hp, bind, Except.bind, pure, Except.pure] at ha
        | some p => exact .inr ⟨rest, p, rfl, by simpa [hobject, hq, hp, bind, Except.bind] using ha⟩

/-- What a chain answers is the answer of an object. -/
theorem exists_of_searchChain {question : Object → Option α} {links : Nat} {o : ObjectRef} {a : α}
    (ha : h.searchChain question links o = .ok (some a)) : ∃ object ∈ h.objects, question object = some a := by
  induction links generalizing o with
  | zero =>
    rcases searchChain_step ha with hfound | ⟨rest, p, hrest, _⟩
    · exact hfound
    · omega
  | succ links ih =>
    rcases searchChain_step ha with hfound | ⟨rest, p, hrest, hp⟩
    · exact hfound
    · obtain rfl := Nat.succ.inj hrest
      exact ih hp

/-- A search looks at nothing but objects. -/
theorem searchChain_congr {g : Heap} (hobject : ∀ o, h.object o = g.object o) (question : Object → Option α)
    (links : Nat) (o : ObjectRef) : h.searchChain question links o = g.searchChain question links o := by
  induction links generalizing o with
  | zero => rw [searchChain, searchChain, hobject]
  | succ links ih =>
    rw [searchChain, searchChain, hobject]
    simp only [ih]

theorem joinedFrom_congr {g : Heap} {elements : List Value} (htext : ∀ s, .string s ∈ elements → g.text s = h.text s)
    (i : Nat) (out : Text) : g.joinedFrom i out elements = h.joinedFrom i out elements := by
  induction elements generalizing i out with
  | nil => rfl
  | cons v rest ih =>
    have hv : g.elementText v = h.elementText v := by
      cases v with
      | string s => exact htext s List.mem_cons_self
      | infinity s => cases s <;> rfl
      | _ => rfl
    have hrest := ih fun s hs => htext s (List.mem_cons_of_mem v hs)
    simp only [joinedFrom, hv, hrest]

/-- The text of an array depends on the texts of the strings in it. -/
theorem joinedText_congr {g : Heap} {elements : List Value} (htext : ∀ s, .string s ∈ elements → g.text s = h.text s) :
    g.joinedText elements = h.joinedText elements := joinedFrom_congr htext 0 Text.empty

theorem stores_of_payload {o : ObjectRef} {payload : ObjectClass} {v : Value}
    (ho : h.objectClass o = .ok payload) (hv : v ∈ payload.values) : h.Stores v := by
  obtain ⟨object, hmem, rfl⟩ := exists_of_objectClass ho
  exact ⟨object, hmem, by simp [Object.values, hv]⟩

theorem stores_of_findHook {o : ObjectRef} {m : Method} {v : Value}
    (ho : h.findHook o m = .ok (some (.answer v))) : h.Stores v := by
  obtain ⟨object, hmem, hhook⟩ := exists_of_searchChain ho
  refine ⟨object, hmem, ?_⟩
  cases m <;> simp_all [Object.hook?, Object.values, Hook.values]

/-! ### Answers -/

/-- How the conversion of an object may end: with an error, with a value that was there before, or with a
new string. -/
inductive Answers (h : Heap) : Except Error Value × Heap → Prop where
  | fails (e : Error) : h.Answers (.error e, h)
  | known (v : Value) (hv : ∀ slot, v = .string (.heap slot) → h.Stores v) : h.Answers (.ok v, h)
  | fresh (t : Text) : h.Answers (.ok (.string (h.allocate t).1), (h.allocate t).2)

theorem Answers.of_not_counted {v : Value} (hv : v.isCounted = false) : h.Answers (.ok v, h) :=
  .known v fun slot hs => by simp [hs, Value.isCounted] at hv

theorem Answers.settles {r : Except Error Value × Heap} (hr : h.Answers r) :
    Settles 1 (handed Value.strings r.1) h r.2 := by
  cases hr with
  | fails e => exact (Settles.refl _ h).mono (by omega) fun _ hmem => hmem
  | known v hv => exact (Settles.refl _ h).mono (by omega) fun _ hmem => hmem
  | fresh t => exact .allocate h t

/-- An answer changes nothing but the strings. -/
theorem Answers.besideStrings_eq {r : Except Error Value × Heap} (hr : h.Answers r) :
    r.2.besideStrings = h.besideStrings := by
  cases hr with
  | fails e => rfl
  | known v hv => rfl
  | fresh t => exact besideStrings_allocate h t

theorem Answers.objects_eq {r : Except Error Value × Heap} (hr : h.Answers r) : r.2.objects = h.objects :=
  (congrArg Heap.objects hr.besideStrings_eq :)

/-! ### What conversions look at -/

/-- The heaps have the same objects, and the strings that these store read the same. -/
structure Shows (h g : Heap) : Prop where
  objects : g.objects = h.objects
  text : ∀ s, h.Stores (.string s) → g.text s = h.text s

namespace Shows

theorem refl (h : Heap) : Shows h h := ⟨rfl, fun _ _ => rfl⟩

variable {g : Heap} (hg : h.Shows g)
include hg

theorem object (o : ObjectRef) : g.object o = h.object o := object_congr hg.objects o

theorem objectClass (o : ObjectRef) : g.objectClass o = h.objectClass o := objectClass_congr hg.objects o

theorem findHook (o : ObjectRef) (m : Method) : g.findHook o m = h.findHook o m :=
  searchChain_congr hg.object _ chainLimit o

theorem joinedText {elements : List Value} (hstores : ∀ v ∈ elements, h.Stores v) :
    g.joinedText elements = h.joinedText elements :=
  joinedText_congr fun s hs => hg.text s (hstores _ hs)

end Shows

/-- A computation ends in one way in all heaps that show the same as the given one. -/
inductive Replies (h : Heap) (a : HeapM Value) : Prop where
  | fails (e : Error) (ha : ∀ g, h.Shows g → a.runOn g = (.error e, g))
  | known (v : Value) (hv : ∀ slot, v = .string (.heap slot) → h.Stores v)
      (ha : ∀ g, h.Shows g → a.runOn g = (.ok v, g))
  | fresh (t : Text) (ha : ∀ g, h.Shows g → a.runOn g = (.ok (.string (g.allocate t).1), (g.allocate t).2))

namespace Replies

variable {a b : HeapM Value}

theorem answers (ha : h.Replies a) : h.Answers (a.runOn h) := by
  cases ha with
  | fails e ha => exact ha h (.refl h) ▸ .fails e
  | known v hv ha => exact ha h (.refl h) ▸ .known v hv
  | fresh t ha => exact ha h (.refl h) ▸ .fresh t

theorem congr (ha : h.Replies a) (hrun : ∀ g, h.Shows g → b.runOn g = a.runOn g) : h.Replies b := by
  cases ha with
  | fails e ha => exact .fails e fun g hg => (hrun g hg).trans (ha g hg)
  | known v hv ha => exact .known v hv fun g hg => (hrun g hg).trans (ha g hg)
  | fresh t ha => exact .fresh t fun g hg => (hrun g hg).trans (ha g hg)

theorem of_not_counted {v : Value} (hv : v.isCounted = false) : h.Replies (pure v) :=
  .known v (fun slot hs => by simp [hs, Value.isCounted] at hv) fun _ _ => rfl

theorem of_payload {o : ObjectRef} {payload : ObjectClass} {v : Value} (ho : h.objectClass o = .ok payload)
    (hv : v ∈ payload.values) : h.Replies (pure v) :=
  .known v (fun _ _ => stores_of_payload ho hv) fun _ _ => rfl

theorem newString (t : Text) : h.Replies (do return .string (← HeapM.newString t)) := .fresh t fun _ _ => rfl

theorem ask_bind {question : Heap → Except Error α} {f : α → HeapM Value}
    (hq : ∀ g, h.Shows g → question g = question h) (hf : ∀ x, question h = .ok x → h.Replies (f x)) :
    h.Replies (HeapM.ask question >>= f) := by
  cases hx : question h with
  | error e => exact .fails e fun g hg => by rw [HeapM.runOn_bind, HeapM.runOn_ask, hq g hg, hx]
  | ok x => exact (hf x hx).congr fun g hg => by rw [HeapM.runOn_bind, HeapM.runOn_ask, hq g hg, hx]

/-- A value that is not primitive is passed over. -/
theorem orElse (ha : h.Replies a) (hb : h.Replies b) :
    h.Replies (a >>= fun v => if v.isPrimitive then pure v else b) := by
  cases ha with
  | fails e ha => exact .fails e fun g hg => by rw [HeapM.runOn_bind, ha g hg]
  | fresh t ha => exact .fresh t fun g hg => by rw [HeapM.runOn_bind, ha g hg]; rfl
  | known v hv ha =>
    by_cases hp : v.isPrimitive = true
    · exact .known v hv fun g hg => by simp only [HeapM.runOn_bind, ha g hg, if_pos hp, HeapM.runOn_pure]
    · exact hb.congr fun g hg => by simp only [HeapM.runOn_bind, ha g hg, if_neg hp]

end Replies
end Heap

/-! ### How objects reply -/

open Heap

variable (h : Heap)

theorem dateToString_replies (o : ObjectRef) :
    h.Replies (do return Value.string (← dateToString o)) := by
  rw [dateToString, dateToStringBy, bind_assoc]
  refine .ask_bind (fun g hg => hg.objectClass o) fun payload _ => ?_
  cases payload with
  | date time =>
    cases htext : Calendar.timeTextBy Calendar.gregorian time with
    | none =>
      simp only [htext]
      exact .of_not_counted rfl
    | some text =>
      simp only [htext]
      exact .newString _
  | _ => exact .fails .notDate fun _ _ => rfl

theorem intrinsicValueOf_replies (o : ObjectRef) : h.Replies (intrinsicValueOf o) := by
  refine .ask_bind (fun g hg => hg.objectClass o) fun payload hclass => ?_
  cases payload with
  | number v => exact .of_payload hclass (List.mem_singleton_self _)
  | string s => exact .of_payload hclass (List.mem_singleton_self _)
  | date time => exact .of_not_counted (Value.isCounted_ofDouble time)
  | boolean b => exact .of_not_counted rfl
  | _ => exact .known (.object o) nofun fun _ _ => rfl

theorem intrinsicToString_replies (o : ObjectRef) : h.Replies (intrinsicToString o) := by
  refine .ask_bind (fun g hg => hg.objectClass o) fun payload hclass => ?_
  cases payload with
  | number v => exact .of_payload hclass (List.mem_singleton_self _)
  | string s => exact .of_payload hclass (List.mem_singleton_self _)
  | boolean b => exact .of_not_counted rfl
  | date time => exact dateToString_replies h o
  | array =>
    refine .ask_bind (fun g hg => ?_) fun text _ => .newString text
    rw [hg.object]
    cases hobject : h.object o with
    | error e => rfl
    | ok object =>
      exact hg.joinedText fun v hv => ⟨object, mem_of_object hobject, by simp [Object.values, hv]⟩
  | object | function _ => exact .newString _

theorem callMethod_replies (o : ObjectRef) (m : Method) : h.Replies (callMethod o m) := by
  refine .ask_bind (fun g hg => hg.findHook o m) fun hook? hfound => ?_
  cases hook? with
  | some hook =>
    cases hook with
    | answer v => exact .known v (fun _ _ => stores_of_findHook hfound) fun _ _ => rfl
    | freshString text => exact .newString _
    | receiver => exact .known (.object o) nofun fun _ _ => rfl
    | throws message => exact .fails _ fun _ _ => rfl
  | none =>
    cases m with
    | valueOf => exact intrinsicValueOf_replies h o
    | toString => exact intrinsicToString_replies h o

/-- The first of the two methods decides that answers with a primitive value. -/
def firstPrimitive (o : ObjectRef) (methods : Method × Method) : HeapM Value := do
  let v ← callMethod o methods.1
  if v.isPrimitive then return v
  let v ← callMethod o methods.2
  if v.isPrimitive then return v
  throw .noPrimitive

theorem firstPrimitive_replies (o : ObjectRef) (methods : Method × Method) :
    h.Replies (firstPrimitive o methods) :=
  (callMethod_replies h o methods.1).orElse
    ((callMethod_replies h o methods.2).orElse (.fails .noPrimitive fun _ _ => rfl))

/-- A conversion is noted, then answered. -/
theorem runOn_defaultValue (o : ObjectRef) (hint : Hint) :
    (defaultValue o hint).runOn h = (firstPrimitive o hint.methods).runOn (h.logConversion o hint) := rfl

/-- A conversion to a primitive value replies, or has the methods of the object reply after it is noted. -/
theorem toPrimitive_replies (o : ObjectRef) (hint : Hint) :
    h.Replies (toPrimitive (.object o) hint) ∨ ∀ g, h.Shows g →
      (toPrimitive (.object o) hint).runOn g =
        (firstPrimitive o hint.methods).runOn (g.logConversion o hint) := by
  cases hclass : h.objectClass o with
  | error e =>
    refine .inl (.fails e fun g hg => ?_)
    simp only [toPrimitive_object, HeapM.runOn_bind, HeapM.runOn_ask, hg.objectClass, hclass]
  | ok payload =>
    by_cases hdate : payload.isDate = true
    · refine .inl ((dateToString_replies h o).congr fun g hg => ?_)
      simp only [toPrimitive_object, HeapM.runOn_bind, HeapM.runOn_ask, hg.objectClass, hclass, hdate, if_true]
    · refine .inr fun g hg => ?_
      simp only [toPrimitive_object, HeapM.runOn_bind, HeapM.runOn_ask, hg.objectClass, hclass, hdate, if_false,
        Bool.false_eq_true]
      exact runOn_defaultValue g o hint

theorem dateToString_answers (o : ObjectRef) :
    h.Answers ((do return Value.string (← dateToString o) : HeapM Value).runOn h) :=
  (dateToString_replies h o).answers

theorem callMethod_answers (o : ObjectRef) (m : Method) : h.Answers ((callMethod o m).runOn h) :=
  (callMethod_replies h o m).answers

theorem defaultValue_answers (o : ObjectRef) (hint : Hint) :
    (h.logConversion o hint).Answers ((defaultValue o hint).runOn h) :=
  (firstPrimitive_replies (h.logConversion o hint) o hint.methods).answers

/-- A conversion of an object to a primitive value answers from the heap as it was or with the conversion
noted. -/
theorem toPrimitive_answers (o : ObjectRef) (hint : Hint) :
    h.Answers ((toPrimitive (.object o) hint).runOn h) ∨
      (h.logConversion o hint).Answers ((toPrimitive (.object o) hint).runOn h) := by
  rcases toPrimitive_replies h o hint with hreplies | hnoted
  · exact .inl hreplies.answers
  · rw [hnoted h (.refl h)]
    exact .inr (defaultValue_answers h o hint)

/-! ### Primitive values -/

section Primitive
variable {h h' : Heap} {o : ObjectRef} {hint : Hint} {p : Value}

theorem isPrimitive_of_firstPrimitive {methods : Method × Method}
    (hrun : (firstPrimitive o methods).runOn h = (.ok p, h')) : p.isPrimitive = true :=
  isPrimitive_of_orElse (fun _ => isPrimitive_of_orElse fun _ hthrow => by cases hthrow) hrun

theorem isNumeric_of_toNumber {v n : Value} (hrun : (toNumber v).runOn h = (.ok n, h')) : n.isNumeric = true := by
  cases v with
  | object o =>
    simp only [toNumber, withPrimitive, HeapM.runOn_bind] at hrun
    split at hrun
    · exact isNumeric_of_primitiveToNumber (congrArg Prod.fst hrun)
    · cases hrun
  | _ =>
    simp only [toNumber, withPrimitive, HeapM.runOn_ask, Prod.mk.injEq] at hrun
    exact isNumeric_of_primitiveToNumber hrun.1

/-- The integer part of a number. -/
def Value.truncated : Value → Value
  | .nan => zero
  | .double d => ofNumber d.val.trunc
  | v => v

/-- What a value is converted to on the way to an integer is a number. -/
theorem toInteger_eq_truncated (v : Value) : toInteger v = (do return (← toNumber v).truncated) := by
  funext h
  show (toNumber v >>= _).runOn h = (toNumber v >>= _).runOn h
  rw [HeapM.runOn_bind, HeapM.runOn_bind]
  rcases hrun : (toNumber v).runOn h with ⟨e | n, h'⟩
  · rfl
  · have hn := isNumeric_of_toNumber hrun
    cases n with
    | int32 _ | double _ | nan | infinity _ => rfl
    | _ => cases hn

end Primitive
end ScriptCore
