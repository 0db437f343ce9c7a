import ScriptCore.Proofs.Indices
import ScriptCore.Proofs.Methods

/-! Texts of arrays.

An array writes its elements by a rule of its own (`Heap.elementText`), which has to agree with the conversion of
each element to a string. It does for all primitive values (`exists_elementText`): every kind has one text,
wherever it is written, and what is absent has none in an array. So an array without methods other than
those of its class becomes a new string, under any hint, that has the texts of the elements in their order and a
comma between neighbours (`toPrimitive_array`). -/
namespace ScriptCore

open Heap HeapM

/-! ### Elements -/

/-- The value becomes a string with these code units. -/
def Heap.Spells (h : Heap) (v : Value) (units : List UInt16) : Prop :=
  ∃ s h' t, (toStringRef v).runOn h = (.ok s, h') ∧ h'.text s = .ok t ∧ t.units = units

/-- What a value is in the text of an array: nothing if it is absent, else what its string is. -/
inductive Heap.Contributes (h : Heap) (v : Value) : List UInt16 → Prop where
  | nothing (hv : v.isNullish = true) : h.Contributes v []
  | string {units : List UInt16} (hv : v.isNullish = false) (hunits : h.Spells v units) : h.Contributes v units

section Elements
variable {h h' : Heap} {v : Value} {s : StringRef} {t : Text}

theorem Heap.Writes.spells (hw : h.Writes v s h' t) : h.Spells v t.units := ⟨s, h', t, hw.run, hw.text, rfl⟩

/-- Zero is written the same from the table and as a double of either sign. -/
theorem text_of_isZero {d : FiniteDouble} (hzero : d.val.isZero = true) : d.val.text = Builtin.digit0.text := by
  rw [Double.text_of_isFinite d.isFinite, Double.finiteText, hzero, if_pos rfl]
  decide +kernel

/-- A primitive value with a text is in the text of an array what it is as a string. -/
theorem exists_elementText (hs : h.Sound) (hn : h.HasNext) (hprimitive : v.isPrimitive = true) (hv : h.Usable v) :
    ∃ t, h.elementText v = .ok t ∧ h.Contributes v t.units := by
  -- An array writes out the texts that conversions take from the table.
  have hbuiltin : ∀ {b}, toStringRef v = pure (.builtin b) → v.isNullish = false →
      h.Contributes v (Text.ofString b.text).units := fun {b} hrun hpresent => by
    rw [Text.units_ofString, ← Text.units_ofBuiltin]
    exact .string hpresent (Writes.of_builtin hs hrun).spells
  have hnew : ∀ {text}, toStringRef v = newString (Text.ofString text) → v.isNullish = false →
      h.Contributes v (Text.ofString text).units :=
    fun hrun hpresent => .string hpresent (Writes.of_newString hs hn hrun).spells
  have habsent : v.isNullish = true → h.Contributes v Text.empty.units := fun hnullish => by
    rw [Text.units_empty]
    exact .nothing hnullish
  cases v with
  | undefined => exact ⟨_, rfl, habsent rfl⟩
  | null => exact ⟨_, rfl, habsent rfl⟩
  | none => exact ⟨_, rfl, habsent rfl⟩
  | nan => exact ⟨Text.ofString Builtin.nan.text, rfl, hbuiltin rfl rfl⟩
  | infinity sign =>
    cases sign with
    | positive => exact ⟨Text.ofString Builtin.infinity.text, rfl, hbuiltin rfl rfl⟩
    | negative => exact ⟨Text.ofString Builtin.negInfinity.text, rfl, hbuiltin rfl rfl⟩
  | boolean b =>
    cases b with
    | true => exact ⟨Text.ofString Builtin.true.text, rfl, hbuiltin rfl rfl⟩
    | false => exact ⟨Text.ofString Builtin.false.text, rfl, hbuiltin rfl rfl⟩
  | string s =>
    obtain ⟨t, ht⟩ := exists_text hv
    exact ⟨t, ht, .string rfl ⟨s, h, t, rfl, ht, rfl⟩⟩
  | int32 n =>
    refine ⟨_, rfl, ?_⟩
    by_cases hzero : n = 0
    · subst hzero
      rw [show int32Text 0 = Builtin.digit0.text by decide +kernel]
      exact hbuiltin rfl rfl
    · exact hnew (toStringRef_int32 hzero) rfl
  | double d =>
    refine ⟨_, rfl, ?_⟩
    cases hzero : d.val.isZero with
    | true =>
      rw [text_of_isZero hzero]
      exact hbuiltin (if_pos hzero) rfl
    | false => exact hnew (toStringRef_double hzero) rfl
  | object o => cases hprimitive
  | environment a => cases hprimitive
  | function a => cases hprimitive

theorem intercalate_cons_append {α : Type} (separator part more : List α) (parts : List (List α)) :
    separator.intercalate ((part ++ more) :: parts) = part ++ separator.intercalate (more :: parts) := by
  cases parts with
  | nil => simp only [List.intercalate_singleton]
  | cons next rest => simp only [List.intercalate_cons_cons, List.append_assoc]

/-- Once an element is behind it, the loop continues the text so far: this text is one more part before the
rest, set off by a comma like each of them. -/
theorem exists_joinedFrom (hs : h.Sound) (hn : h.HasNext) {elements : List Value}
    (helements : ∀ v ∈ elements, v.isPrimitive = true ∧ h.Usable v) (i : Nat) (out : Text) :
    ∃ parts t, List.Forall₂ h.Contributes elements parts ∧ h.joinedFrom (i + 1) out elements = .ok t ∧
      t.units = (Utf16.ofString ",").intercalate (out.units :: parts) := by
  induction elements generalizing i out with
  | nil => exact ⟨[], out, .nil, rfl, (List.intercalate_singleton ..).symm⟩
  | cons v rest ih =>
    obtain ⟨⟨hprimitive, hv⟩, hrest⟩ := List.forall_mem_cons.mp helements
    obtain ⟨piece, hpiece, hcontributes⟩ := exists_elementText hs hn hprimitive hv
    obtain ⟨parts, t, hparts, ht, hunits⟩ := ih hrest (i + 1) ((out.push 44).append piece)
    refine ⟨piece.units :: parts, t, .cons hcontributes hparts, ?_, ?_⟩
    · rw [joinedFrom, if_pos (Nat.succ_pos i), hpiece]
      exact ht
    · rw [hunits, Text.units_append, Text.units_push, intercalate_cons_append, List.intercalate_cons_cons]
      rfl

/-- The texts of the elements, with commas between them, are the text of the list. -/
theorem exists_joinedText (hs : h.Sound) (hn : h.HasNext) {elements : List Value}
    (helements : ∀ v ∈ elements, v.isPrimitive = true ∧ h.Usable v) :
    ∃ parts t, List.Forall₂ h.Contributes elements parts ∧ h.joinedText elements = .ok t ∧
      t.units = (Utf16.ofString ",").intercalate parts := by
  cases elements with
  | nil => exact ⟨[], Text.empty, .nil, rfl, Text.units_empty⟩
  | cons v rest =>
    obtain ⟨⟨hprimitive, hv⟩, hrest⟩ := List.forall_mem_cons.mp helements
    obtain ⟨piece, hpiece, hcontributes⟩ := exists_elementText hs hn hprimitive hv
    obtain ⟨parts, t, hparts, ht, hunits⟩ := exists_joinedFrom hs hn hrest 0 (Text.empty.append piece)
    refine ⟨piece.units :: parts, t, .cons hcontributes hparts, ?_, ?_⟩
    · rw [joinedText, joinedFrom, if_neg (Nat.lt_irrefl 0), hpiece]
      exact ht
    · rw [hunits, Text.units_append, Text.units_empty, List.nil_append]

end Elements

/-! ### Arrays -/

section Arrays
variable {h g : Heap} {o : ObjectRef} {object : Object} {t : Text}

theorem runOn_intrinsicValueOf_array (hclass : h.objectClass o = .ok .array) :
    (intrinsicValueOf o).runOn h = (.ok (.object o), h) := by
  rw [intrinsicValueOf, runOn_bind, runOn_ask, hclass]
  rfl

theorem runOn_intrinsicToString_array (hobject : h.object o = .ok object) (hpayload : object.payload = .array)
    (ht : h.joinedText object.elements = .ok t) :
    (intrinsicToString o).runOn h = (.ok (.string (.heap h.nextSlot)), (h.allocate t).2) := by
  have hclass : h.objectClass o = .ok .array := by rw [objectClass_of_object hobject, hpayload]
  have htext : (do h.joinedText (← h.object o).elements) = .ok t := by rw [hobject]; exact ht
  rw [intrinsicToString, runOn_bind, runOn_ask, hclass]
  simp only [runOn_bind, runOn_ask, htext]
  rw [← allocate_fst h t]
  rfl

/-- Under any hint the string is what decides: the other method answers with the array. -/
theorem runOn_firstPrimitive_array (hobject : h.object o = .ok object) (hpayload : object.payload = .array)
    (hends : h.EndsWithin (·.prototype?) chainLimit o) (hplain : ∀ m, h.Unhooked o m)
    (hobjects : g.objects = h.objects) (ht : g.joinedText object.elements = .ok t) (hint : Hint) :
    (firstPrimitive o hint.methods).runOn g = (.ok (.string (.heap g.nextSlot)), (g.allocate t).2) := by
  have hobject' : g.object o = .ok object := (object_congr hobjects o).trans hobject
  have hclass : g.objectClass o = .ok .array := by rw [objectClass_of_object hobject', hpayload]
  have hvalueOf : (callMethod o .valueOf).runOn g = (.ok (.object o), g) :=
    ((Provides.intrinsic hends (hplain .valueOf)).runOn_callMethod hobjects).trans
      (runOn_intrinsicValueOf_array hclass)
  have htoString : (callMethod o .toString).runOn g = (.ok (.string (.heap g.nextSlot)), (g.allocate t).2) :=
    ((Provides.intrinsic hends (hplain .toString)).runOn_callMethod hobjects).trans
      (runOn_intrinsicToString_array hobject' hpayload ht)
  have hnot : ¬ Decides ((callMethod o .valueOf).runOn g).1 := fun hdecides => by
    rw [hvalueOf] at hdecides
    exact nomatch hdecides _ rfl
  have hdecides : Decides ((callMethod o .toString).runOn g).1 := by
    rw [htoString]
    exact fun v hv => Except.ok.inj hv ▸ rfl
  cases hint with
  | string => exact Eq.trans (firstPrimitive_of_first hdecides) htoString
  | number => exact Eq.trans (firstPrimitive_of_second hnot hdecides) htoString
  | default => exact Eq.trans (firstPrimitive_of_second hnot hdecides) htoString

theorem runOn_toPrimitive_array (hclass : h.objectClass o = .ok .array) (hint : Hint) :
    (toPrimitive (.object o) hint).runOn h = (firstPrimitive o hint.methods).runOn (h.logConversion o hint) := by
  rw [← runOn_defaultValue, toPrimitive_object, runOn_bind, runOn_ask, hclass]
  rfl

theorem runOn_toStringRef_of_string {s : StringRef}
    (hrun : (toPrimitive (.object o) .string).runOn h = (.ok (.string s), g)) :
    (toStringRef (.object o)).runOn h = (.ok s, g) := by
  rw [toStringRef, runOn_bind, hrun]
  rfl

end Arrays

/-- An array of primitive values, with the methods of its class only, becomes a new string under any hint. Its code
units are those that the elements contribute, in their order and with a comma between neighbours. -/
theorem toPrimitive_array (h : Heap) (hs : h.Sound) (hn : h.HasNext) (o : ObjectRef) (object : Object)
    (hobject : h.object o = .ok object) (hpayload : object.payload = .array)
    (hends : h.EndsWithin (·.prototype?) chainLimit o) (hplain : ∀ m, h.Unhooked o m)
    (helements : ∀ v ∈ object.elements, v.isPrimitive = true ∧ h.Usable v) :
    ∃ parts t, List.Forall₂ h.Contributes object.elements parts ∧
      t.units = (Utf16.ofString ",").intercalate parts ∧ h.slot? h.nextSlot = none ∧
      (∀ hint, ∃ h', (toPrimitive (.object o) hint).runOn h = (.ok (.string (.heap h.nextSlot)), h') ∧
        h' = ((h.logConversion o hint).allocate t).2 ∧ h'.slot? h.nextSlot = some ⟨t, 0⟩) ∧
      ∃ h', (toStringRef (.object o)).runOn h = (.ok (.heap h.nextSlot), h') ∧
        h' = ((h.logConversion o .string).allocate t).2 ∧ h'.slot? h.nextSlot = some ⟨t, 0⟩ := by
  obtain ⟨parts, t, hparts, ht, hunits⟩ := exists_joinedText hs hn helements
  have hclass : h.objectClass o = .ok .array := by rw [objectClass_of_object hobject, hpayload]
  have hprimitive : ∀ hint, ∃ h', (toPrimitive (.object o) hint).runOn h = (.ok (.string (.heap h.nextSlot)), h') ∧
      h' = ((h.logConversion o hint).allocate t).2 ∧ h'.slot? h.nextSlot = some ⟨t, 0⟩ := fun hint => by
    -- To note the conversion changes nothing that the methods look at.
    have htext : ∀ s, (h.logConversion o hint).text s = h.text s := fun _ => rfl
    have ht' : (h.logConversion o hint).joinedText object.elements = .ok t :=
      (joinedText_congr fun s _ => htext s).trans ht
    have hnoted := runOn_firstPrimitive_array (g := h.logConversion o hint) hobject hpayload hends hplain rfl ht' hint
    refine ⟨_, (runOn_toPrimitive_array hclass hint).trans hnoted, rfl, ?_⟩
    exact (slot?_allocate_of_hasNext (h.logConversion o hint) t hn _).trans (if_pos rfl)
  obtain ⟨h', hrun, hresult⟩ := hprimitive .string
  exact ⟨parts, t, hparts, hunits, slot?_nextSlot_of_sound hs hn, hprimitive, h', runOn_toStringRef_of_string hrun,
    hresult⟩

/-- An array with a prototype, of half a surrogate pair, nothing, a negative zero and a truth value. -/
def ragged : Heap :=
  { strings := #[some ⟨Text.ofUnits [0xD800], 1⟩]
    objects := #[
      { payload := .object },
      { payload := .array
        elements := [.string (.heap 0), .undefined, Value.negativeZero, .boolean true]
        prototype? := some ⟨0⟩ }] }

/-- Above the array there is the prototype and nothing else, neither with methods. -/
theorem unhooked_ragged (m : Method) : ragged.Unhooked ⟨1⟩ m := fun q object _ hobject => by
  have hmem := mem_of_object hobject
  simp only [ragged, List.mem_toArray, List.mem_cons, List.not_mem_nil, or_false] at hmem
  rcases hmem with rfl | rfl <;> cases m <;> rfl

theorem toPrimitive_array_ragged :
    ragged.Sound ∧ ragged.HasNext ∧ ragged.EndsWithin (·.prototype?) chainLimit ⟨1⟩ ∧
    (∀ m, ragged.Unhooked ⟨1⟩ m) ∧
    ∃ t, t.units = 0xD800 :: Utf16.ofString ",,0,true" ∧
      ∀ hint, ∃ h', (toPrimitive (.object ⟨1⟩) hint).runOn ragged = (.ok (.string (.heap 1)), h') ∧
        h'.slot? 1 = some ⟨t, 0⟩ := by
  have hsound : ragged.Sound := by
    have hallocated := (sound_new {}).allocate (Text.ofUnits [0xD800])
    exact sound_invariant.congr (sound_invariant.setRefcount 0 (· + 1) hallocated) (by decide +kernel) rfl
  have hnext : ragged.HasNext := (by decide : (1 : Nat) < 2 ^ 32)
  have hends : ragged.EndsWithin (·.prototype?) chainLimit ⟨1⟩ := by
    refine EndsWithin.mono (m := 2) (by decide) ⟨_, rfl, fun p hp => ?_⟩
    obtain rfl := Option.some.inj hp
    exact ⟨_, rfl, fun _ hp => nomatch hp⟩
  have helements : ∀ v ∈ [Value.string (.heap 0), .undefined, Value.negativeZero, .boolean true],
      v.isPrimitive = true ∧ ragged.Usable v := by
    simp only [List.forall_mem_cons]
    exact ⟨⟨rfl, rfl⟩, ⟨rfl, trivial⟩, ⟨rfl, trivial⟩, ⟨rfl, trivial⟩, nofun⟩
  obtain ⟨parts, t, -, -, -, hprimitive, -⟩ :=
    toPrimitive_array ragged hsound hnext ⟨1⟩ _ rfl rfl hends unhooked_ragged helements
  have htext : ((toPrimitive (.object ⟨1⟩) .default).runOn ragged).2.slot? 1 =
      some ⟨Text.ofUnits (0xD800 :: Utf16.ofString ",,0,true"), 0⟩ := by decide +kernel
  obtain ⟨h', hrun, -, hslot⟩ := hprimitive .default
  rw [hrun] at htext
  obtain rfl : t = Text.ofUnits (0xD800 :: Utf16.ofString ",,0,true") := by
    injection hslot.symm.trans htext with hentry
    injection hentry
  refine ⟨hsound, hnext, hends, unhooked_ragged, _, Text.units_ofUnits _, fun hint => ?_⟩
  obtain ⟨h', hrun, -, hslot⟩ := hprimitive hint
  exact ⟨h', hrun, hslot⟩

end ScriptCore
