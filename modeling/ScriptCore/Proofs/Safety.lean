import ScriptCore.Proofs.Growth

/-! No internal errors.

From a well-formed heap, with operands that a program can have, every conversion and every operator ends
with a result or a type error, and leaves a well-formed heap (`safe_of_wellFormed`). Each function has one
lemma. Nearly all of them read their operands before any bracket closes, so that their lemmas know only of
grown heaps; subtraction, multiplication, division and remainder read the right operand after the bracket
around the left one is closed. -/
namespace ScriptCore

open Heap HeapM

variable {α β : Type} {h h' : Heap}

/-! ### Conversions to primitive values -/

theorem fine_dateToString {o : ObjectRef} {time : Double} (hclass : h.objectClass o = .ok (.date time)) :
    Fine ((dateToString o).runOn h).1 := by
  refine fine_ask_bind (fun e he => by rw [hclass] at he; cases he) fun payload hpayload => ?_
  obtain rfl := Except.ok.inj (hclass.symm.trans hpayload)
  simp only
  split <;> exact .ok _

theorem fine_intrinsicValueOf {o : ObjectRef} (ho : h.Usable (.object o)) : Fine
    ((intrinsicValueOf o).runOn h).1 := by
  refine fine_ask_bind (fine_objectClass ho) fun payload _ => ?_
  cases payload <;> exact .ok _

theorem fine_intrinsicToString (hw : h.WellFormed) {o : ObjectRef} (ho : h.Usable (.object o)) :
    Fine ((intrinsicToString o).runOn h).1 := by
  refine fine_ask_bind (fine_objectClass ho) fun payload hclass => ?_
  cases payload with
  | date time => exact fine_map (fine_dateToString hclass) _
  | array =>
    obtain ⟨object, hobject⟩ := ho
    refine fine_ask_bind ?_ fun t _ => .ok _
    refine Fine.bind (fun e he => by rw [hobject] at he; cases he) fun found hfound => ?_
    refine fine_joinedFrom hw (fun v hv => ⟨found, mem_of_object hfound, ?_⟩) 0 Text.empty
    simp [Object.values, hv]
  | _ => exact .ok _

theorem fine_callMethod (hw : h.WellFormed) {o : ObjectRef} (ho : h.Usable (.object o)) (m : Method) :
    Fine ((callMethod o m).runOn h).1 := by
  refine fine_ask_bind (fine_findHook hw ho m) fun hook? _ => ?_
  cases hook? with
  | some hook =>
    cases hook with
    | throws message => exact .error rfl
    | _ => exact .ok _
  | none =>
    cases m with
    | valueOf => exact fine_intrinsicValueOf ho
    | toString => exact fine_intrinsicToString hw ho

theorem callMethod_yields (hw : h.WellFormed) {o : ObjectRef} (ho : h.Usable (.object o)) (m : Method) :
    (callMethod o m).Yields h fun _ h' => Grows h h' where
  fine := fine_callMethod hw ho m
  post v h' hrun := by
    have hgrows := (callMethod_answers h o m).grows hw.sound
    rwa [hrun] at hgrows

theorem defaultValue_yields (hw : h.WellFormed) {o : ObjectRef} (ho : h.Usable (.object o)) (hint : Hint) :
    (defaultValue o hint).Yields h fun v _ => v.isPrimitive = true := by
  have hlogged : (change (·.logConversion o hint)).Yields h fun _ h' => Grows h h' := by
    refine ⟨.ok (), fun _ h' hrun => ?_⟩
    obtain rfl : h.logConversion o hint = h' := congrArg Prod.snd hrun
    exact .logConversion hw.sound o hint
  refine hlogged.bind fun _ h₁ hg₁ => ?_
  refine (callMethod_yields (hw.grows hg₁) (hg₁.usable ho) _).bind fun v h₂ hg₂ => ?_
  have hg := hg₁.trans hg₂
  split
  · exact .pure ‹_›
  · refine (callMethod_yields (hw.grows hg) (hg.usable ho) _).bind fun w h₃ _ => ?_
    split
    · exact .pure ‹_›
    · exact .throw rfl

/-- What a value is converted to for use in a bracket. -/
structure Converts (h : Heap) (p : Value) (h' : Heap) : Prop where
  isPrimitive : p.isPrimitive = true
  usable : h'.Usable p
  grows : Grows h h'
  spares : h.HasNext → h.Spares p

theorem Heap.Answers.converts (hw : h.WellFormed) {p : Value} (hr : h.Answers (.ok p, h'))
    (hp : p.isPrimitive = true) : Converts h p h' where
  isPrimitive := hp
  usable := usable_of_isPrimitive hp fun _ hv => hr.isLive hw hv
  grows := hr.grows hw.sound
  spares hn := hr.spares hw hn

theorem Converts.of_logged (hw : h.WellFormed) {o : ObjectRef} {hint : Hint} {p : Value}
    (hc : Converts (h.logConversion o hint) p h') : Converts h p h' :=
  { hc with grows := (Grows.logConversion hw.sound o hint).trans hc.grows }

/-- An object's conversion ends with its answer. -/
theorem yields_of_answers (hw : h.WellFormed) {a : HeapM Value} (o : ObjectRef) (hint : Hint)
    (ha : h.Answers (a.runOn h) ∨ (h.logConversion o hint).Answers (a.runOn h))
    (hp : a.Yields h fun p _ => p.isPrimitive = true) : a.Yields h (Converts h) where
  fine := hp.fine
  post p h' hrun := by
    have hprimitive := hp.post p h' hrun
    rw [hrun] at ha
    rcases ha with hr | hr
    · exact hr.converts hw hprimitive
    · exact (hr.converts (hw.grows (.logConversion hw.sound o hint)) hprimitive).of_logged hw

theorem toPrimitive_yields (hw : h.WellFormed) {o : ObjectRef} (ho : h.Usable (.object o)) (hint : Hint) :
    (toPrimitive (.object o) hint).Yields h (Converts h) := by
  refine yields_of_answers hw o hint (toPrimitive_answers h o hint) ?_
  rw [toPrimitive_object]
  refine .ask_bind (fine_objectClass ho) fun payload hclass => ?_
  cases payload with
  | date time => exact (Yields.of_fine (fine_dateToString hclass)).bind fun _ _ _ => .pure rfl
  | _ => exact defaultValue_yields hw ho hint

theorem toPrimitiveUnboxed_yields (hw : h.WellFormed) {o : ObjectRef} (ho : h.Usable (.object o)) :
    (toPrimitiveUnboxed (.object o)).Yields h (Converts h) := by
  refine yields_of_answers hw o .default (toPrimitiveUnboxed_answers h o) (.ask_bind (fine_objectClass ho) ?_)
  intro payload hclass
  cases payload with
  | number n =>
    obtain ⟨object, hmem, hpayload⟩ := exists_of_objectClass hclass
    exact .pure (Value.isPrimitive_of_isNumeric (hw.numbers object hmem n hpayload))
  | boolean b => exact .pure rfl
  | _ => exact (toPrimitive_yields hw ho .default).mono fun p h' hp => hp.isPrimitive

theorem fine_toPrimitive (hw : h.WellFormed) {v : Value} (hv : h.Usable v) (hint : Hint) : Fine
    ((toPrimitive v hint).runOn h).1 := by
  cases v with
  | object o => exact (toPrimitive_yields hw hv hint).fine
  | _ => exact .ok _

theorem fine_toPrimitiveUnboxed (hw : h.WellFormed) {v : Value} (hv : h.Usable v) : Fine
    ((toPrimitiveUnboxed v).runOn h).1 := by
  cases v with
  | object o => exact (toPrimitiveUnboxed_yields hw hv).fine
  | _ => exact .ok _

/-! ### Brackets -/

/-- The body of a bracket runs in a heap that has grown. -/
theorem fine_transient {a : HeapM Value} (ha : a.Yields h (Converts h)) {body : Value → HeapM α}
    (hbody : ∀ p g, p.isPrimitive = true → g.Usable p → Grows h g → Fine ((body p).runOn g).1) :
    Fine ((a >>= fun p => withTransient p (body p)).runOn h).1 := by
  refine ha.fine_bind fun p g hp => ?_
  have hretained := Grows.retain hp.grows.sound hp.isPrimitive
  exact hbody p (g.retain p) hp.isPrimitive (hretained.usable hp.usable) (hp.grows.trans hretained)

theorem fine_withPrimitive (hw : h.WellFormed) {v : Value} (hv : h.Usable v) {hint : Hint}
    {body : Value → HeapM α}
    (hbody : ∀ p g, p.isPrimitive = true → g.Usable p → Grows h g → Fine ((body p).runOn g).1) :
    Fine ((withPrimitive v hint body).runOn h).1 := by
  cases v with
  | object o => exact fine_transient (toPrimitive_yields hw hv hint) hbody
  | environment _ | function _ => exact hv.elim
  | _ => exact hbody _ h rfl hv (.refl hw.sound)

/-! ### Conversions to numbers -/

theorem fine_toNumber (hw : h.WellFormed) {v : Value} (hv : h.Usable v) : Fine ((toNumber v).runOn h).1 :=
  fine_withPrimitive hw hv fun _ _ hp hu _ => fine_primitiveToNumber hu hp

/-- After a conversion to a number the heap has grown, although the bracket is closed. This takes an empty
slot: without one a new string comes in the place of another, and is freed in its stead. -/
theorem toNumber_yields (hw : h.WellFormed) (hn : h.HasNext) {v : Value} (hv : h.Usable v) :
    (toNumber v).Yields h fun _ h' => Grows h h' where
  fine := fine_toNumber hw hv
  post n h' hrun := by
    cases v with
    | object o =>
      cases hcase : (toPrimitive (.object o) .number).runOn h with
      | mk outcome g =>
        simp only [toNumber, withPrimitive, runOn_bind, hcase] at hrun
        cases outcome with
        | error e => cases hrun
        | ok p =>
          have hp := (toPrimitive_yields hw hv .number).post p g hcase
          obtain rfl : (g.retain p).release p = h' := congrArg Prod.snd hrun
          have hretained := sound_invariant.retain hp.grows.sound p
          exact hp.grows.transient hp.isPrimitive (hp.spares hn) (.refl hretained)
    | _ =>
      obtain rfl : h = h' := congrArg Prod.snd hrun
      exact .refl hw.sound

theorem fine_toDouble (hw : h.WellFormed) {v : Value} (hv : h.Usable v) : Fine ((toDouble v).runOn h).1 :=
  fine_map (fine_toNumber hw hv) _

theorem fine_toUInt32 (hw : h.WellFormed) {v : Value} (hv : h.Usable v) : Fine ((toUInt32 v).runOn h).1 := by
  unfold toUInt32
  split
  · exact .ok _
  · exact fine_map (fine_toDouble hw hv) _

theorem fine_toInt32 (hw : h.WellFormed) {v : Value} (hv : h.Usable v) : Fine ((toInt32 v).runOn h).1 := by
  unfold toInt32
  split
  · exact .ok _
  · exact fine_map (fine_toUInt32 hw hv) _

theorem fine_toSmallInteger (hw : h.WellFormed) {v : Value} (hv : h.Usable v) : Fine
    ((toSmallInteger v).runOn h).1 := by
  unfold toSmallInteger
  split
  · exact .ok _
  · exact .ok _
  · exact fine_toInt32 hw hv

theorem fine_toLength (hw : h.WellFormed) {v : Value} (hv : h.Usable v) : Fine ((toLength v).runOn h).1 :=
  fine_withPrimitive hw hv fun _ _ hp hu _ => fine_primitiveToLengthBy _ hu hp

/-! ### Conversions to strings -/

theorem primitiveToString_yields (hs : h.Sound) {v : Value} (hp : v.isPrimitive = true) (hv : h.Usable v) :
    (primitiveToString v).Yields h fun s h' => Grows h h' ∧ h'.isLive s = true := by
  have hnew : ∀ t, (newString t).Yields h fun s h' => Grows h h' ∧ h'.isLive s = true := by
    refine fun t => ⟨.ok _, fun s h' hrun => ?_⟩
    obtain ⟨heq, rfl⟩ := Prod.mk.inj hrun
    obtain rfl := Except.ok.inj heq
    exact ⟨.allocate hs t, isLive_allocate hs t⟩
  have hbuiltin : ∀ b, (pure (.builtin b) : HeapM StringRef).Yields h fun s h' =>
      Grows h h' ∧ h'.isLive s = true := fun b => .pure ⟨.refl hs, rfl⟩
  cases v with
  | boolean b => cases b <;> exact hbuiltin _
  | infinity sign => cases sign <;> exact hbuiltin _
  | int32 n =>
    simp only [primitiveToString]
    split
    · exact hbuiltin _
    · exact hnew _
  | double d =>
    simp only [primitiveToString]
    split
    · exact hbuiltin _
    · exact hnew _
  | string s => exact .pure ⟨.refl hs, hv⟩
  | object _ | environment _ | function _ => cases hp
  | _ => exact hbuiltin _

/-- An object's string is its primitive value or is made from it. In the second case the value is no
reference, and the bracket around it does nothing. -/
theorem toStringRef_yields (hw : h.WellFormed) {v : Value} (hv : h.Usable v) :
    (toStringRef v).Yields h fun s h' => Grows h h' ∧ h'.isLive s = true := by
  cases v with
  | object o =>
    refine (toPrimitive_yields hw hv .string).bind fun p g hp => ?_
    split
    · exact .pure ⟨hp.grows, hp.usable⟩
    · rename_i hstring
      have hcounted : p.isCounted = false := by
        obtain ⟨slot, rfl⟩ | ⟨o, rfl⟩ | hp' := isCounted_cases p
        · exact (hstring _ rfl).elim
        · cases hp.isPrimitive
        · exact hp'
      rw [withTransient_of_not_counted p _ hcounted]
      exact (primitiveToString_yields hp.grows.sound hp.isPrimitive hp.usable).mono fun s g' hs =>
        ⟨hp.grows.trans hs.1, hs.2⟩
  | environment _ | function _ => exact hv.elim
  | _ => exact primitiveToString_yields hw.sound rfl hv

/-! ### Addition -/

theorem fine_joinStrings {left right : StringRef} (hl : h.isLive left = true) (hr : h.isLive right = true) :
    Fine ((joinStrings left right).runOn h).1 :=
  fine_ask_bind ((fine_text hl).bind fun _ _ => (fine_text hr).map _) fun _ _ => .ok _

/-- Tracking a string on a scratch list has no effect on the outcome. -/
theorem fine_lift_trackFresh {a : HeapM StringRef} {mid : StringRef → Heap → Prop} (ha : a.Yields h mid)
    {v : Value} {f : StringRef → ScratchM α} {scratch : Scratch}
    (hf : ∀ s g scratch, mid s g → Fine ((f s).runOn scratch g).1.1) :
    Fine ((ScratchM.lift a >>= fun s => ScratchM.trackFresh v s >>= fun _ => f s).runOn scratch h).1.1 := by
  rw [ScratchM.runOn_bind, ScratchM.runOn_lift]
  cases hcase : a.runOn h with
  | mk outcome g =>
    cases outcome with
    | error e => exact .error (ha.fine e (by rw [hcase]))
    | ok s =>
      simp only [ScratchM.runOn_bind, ScratchM.runOn_trackFresh]
      exact hf s g _ (ha.post s g hcase)

theorem fine_addPrimitives (hs : h.Sound) {left right : Value} (hpl : left.isPrimitive = true)
    (hpr : right.isPrimitive = true) (hl : h.Usable left) (hr : h.Usable right) :
    Fine ((addPrimitives left right).runOn h).1 := by
  unfold addPrimitives
  split
  · rw [runOn_withScratch]
    refine fine_lift_trackFresh (primitiveToString_yields hs hpl hl) fun s g _ hg => ?_
    have hright := primitiveToString_yields hg.1.sound hpr (hg.1.usable hr)
    refine fine_lift_trackFresh hright fun t g' _ hg' => ?_
    exact fine_joinStrings (hg'.1.lasts.isLive hg.2) hg'.2
  · exact fine_ask_bind (fine_primitiveToNumber hl hpl) fun _ _ =>
      fine_ask_bind (fine_primitiveToNumber hr hpr) fun _ _ => .ok _

theorem fine_add (hw : h.WellFormed) {x y : Value} (hx : h.Usable x) (hy : h.Usable y) : Fine
    ((add x y).runOn h).1 := by
  have hreal : ∀ {v}, h.Usable v → v.isEngineMade = false := by
    intro v hv
    cases v with
    | environment _ | function _ => exact hv.elim
    | _ => rfl
  rw [(add_cases x y).resolve_right fun hengine => by simp [hreal hx, hreal hy] at hengine]
  refine fine_withPrimitive hw hx fun left g hpl hl hg => ?_
  refine fine_withPrimitive (hw.grows hg) (hg.usable hy) fun right g' hpr hr hg' => ?_
  exact fine_addPrimitives hg'.sound hpl hpr (hg'.usable hl) hr

/-! ### Arithmetic on numbers -/

/-- Resolving an operand does no more than a conversion to a number does. -/
theorem resolve_yields_of_toNumber (hw : h.WellFormed) {post : Heap → Prop} (hpost : post h) {v : Value}
    (hv : h.Usable v)
    (hnumber : (toNumber v).Yields h fun _ h' => post h') : (resolve v).Yields h fun _ h' => post h' := by
  cases v with
  | object o =>
    rw [resolve_object]
    refine .ask_bind (fine_objectClass hv) fun payload hclass => ?_
    cases payload with
    | string s =>
      have hstores : h.Stores (.string s) := stores_of_payload hclass (by simp [ObjectClass.values])
      exact .ask_bind (fine_primitiveToNumber (hw.isLive hstores) rfl) fun _ _ => .pure hpost
    | object | array | date _ => exact hnumber.bind fun _ _ hg => .pure hg
    | _ => exact .pure hpost
  | environment _ | function _ => exact hv.elim
  | _ =>
    rw [resolve_of_isPrimitive rfl]
    exact .ask_bind (fine_primitiveToNumber hv rfl) fun _ _ => .pure hpost

/-- The right operand is read after the bracket around the left one is closed. -/
theorem fine_onNumbers (hw : h.WellFormed) (hn : h.HasNext) (compute : Value → Value → Value) {x y : Value}
    (hx : h.Usable x) (hy : h.Usable y) : Fine ((onNumbers compute x y).runOn h).1 := by
  have hleft := resolve_yields_of_toNumber hw (.refl hw.sound) hx (toNumber_yields hw hn hx)
  refine hleft.fine_bind fun a? g hg => ?_
  cases a? with
  | none => exact .ok _
  | some a =>
    have hright := resolve_yields_of_toNumber (hw.grows hg) trivial (hg.usable hy)
      (.of_fine (fine_toNumber (hw.grows hg) (hg.usable hy)))
    refine hright.fine_bind fun b? g' _ => ?_
    cases b? <;> exact .ok _

/-! ### Comparisons -/

theorem fine_relate (hw : h.WellFormed) {x y : Value} (hx : h.Usable x) (hy : h.Usable y) (leftFirst : Bool) :
    Fine ((relate x y leftFirst).runOn h).1 := by
  unfold relate
  split
  · exact .ok _
  split
  · exact .ok _
  split
  · exact .ok _
  split
  · exact fine_withPrimitive hw hx fun px g hpx hux hg =>
      fine_withPrimitive (hw.grows hg) (hg.usable hy) fun py g' hpy huy hg' =>
        fine_comparePrimitives (hg'.usable hux) huy hpx hpy
  · exact fine_withPrimitive hw hy fun py g hpy huy hg =>
      fine_withPrimitive (hw.grows hg) (hg.usable hx) fun px g' hpx hux hg' =>
        fine_comparePrimitives hux (hg'.usable huy) hpx hpy

/-- How many conversions a value is away from a number, or from something that equals no number. -/
def Value.rank : Value → Nat
  | object _ => 2
  | string _ | boolean _ => 1
  | _ => 0

@[simp] theorem Value.rank_object (o : ObjectRef) : (object o).rank = 2 := rfl

@[simp] theorem Value.rank_string (s : StringRef) : (string s).rank = 1 := rfl

@[simp] theorem Value.rank_boolean (b : Bool) : (boolean b).rank = 1 := rfl

@[simp] theorem Value.rank_boolNumber (b : Bool) : (boolNumber b).rank = 0 := rfl

theorem Value.rank_le_two (v : Value) : v.rank ≤ 2 := by
  cases v <;> simp [rank]

theorem Value.rank_le_one {v : Value} (hv : v.isObject = false) : v.rank ≤ 1 := by
  cases v with
  | object _ => cases hv
  | _ => simp [rank]

theorem Value.isObject_of_isPrimitive {v : Value} (hp : v.isPrimitive = true) : v.isObject = false := by
  cases v with
  | object _ => cases hp
  | _ => rfl

theorem Value.rank_of_isNumeric {v : Value} (hv : v.isNumeric = true) : v.rank = 0 := by
  cases v with
  | string _ | boolean _ | object _ => cases hv
  | _ => rfl

theorem Value.rank_undefinedIfNone (v : Value) : v.undefinedIfNone.rank = v.rank := by
  cases v <;> rfl

theorem Heap.usable_of_isNumeric {v : Value} (hv : v.isNumeric = true) : h.Usable v := by
  cases v with
  | string _ | object _ | environment _ | function _ => cases hv
  | _ => trivial

theorem Heap.usable_undefinedIfNone {v : Value} (hv : h.Usable v) : h.Usable v.undefinedIfNone := by
  cases v with
  | none => trivial
  | _ => exact hv

/-- What an object is compared by is no object. -/
theorem fine_withUnboxed (hw : h.WellFormed) {o : ObjectRef} (ho : h.Usable (.object o))
    {compare : Value → HeapM Bool}
    (hcompare : ∀ p g, p.rank ≤ 1 → g.Usable p → Grows h g → Fine ((compare p).runOn g).1) :
    Fine ((withUnboxed (.object o) compare).runOn h).1 :=
  fine_transient (toPrimitiveUnboxed_yields hw ho) fun p g hp hu hg =>
    hcompare p g (Value.rank_le_one (Value.isObject_of_isPrimitive hp)) hu hg

theorem fine_readNumber {s : StringRef} (hs : h.Usable (.string s)) {compare : Value → HeapM Bool}
    (hcompare : ∀ n, n.rank = 0 → h.Usable n → Fine ((compare n).runOn h).1) :
    Fine ((HeapM.ask (·.primitiveToNumber (.string s)) >>= compare).runOn h).1 := by
  refine fine_ask_bind (fine_primitiveToNumber hs rfl) fun n hn => ?_
  have hnumeric := isNumeric_of_primitiveToNumber hn
  exact hcompare n (Value.rank_of_isNumeric hnumeric) (usable_of_isNumeric hnumeric)

/-- Every comparison but the last converts an operand. -/
theorem fine_looseEqualsWithin (hw : h.WellFormed) {fuel : Nat} {x y : Value}
    (hfuel : x.rank + y.rank < fuel) (hx : h.Usable x)
    (hy : h.Usable y) : Fine ((looseEqualsWithin fuel x y).runOn h).1 := by
  induction fuel generalizing h x y with
  | zero => omega
  | succ fuel ih =>
    rw [← Value.rank_undefinedIfNone x, ← Value.rank_undefinedIfNone y] at hfuel
    have hx := usable_undefinedIfNone hx
    have hy := usable_undefinedIfNone hy
    unfold looseEqualsWithin
    generalize x.undefinedIfNone = x at hx hfuel
    generalize y.undefinedIfNone = y at hy hfuel
    simp only
    split
    · exact fine_strictEquals hx hy
    split
    · exact fine_sameValue hx hy
    split
    · exact .ok _
    · exact .ok _
    · exact hy.elim
    · exact hx.elim
    · rw [Value.rank_boolean] at hfuel
      exact ih hw (by rw [Value.rank_boolNumber]; omega) trivial hy
    · rw [Value.rank_boolean] at hfuel
      exact ih hw (by rw [Value.rank_boolNumber]; omega) hx trivial
    · rw [Value.rank_string, Value.rank_object] at hfuel
      exact fine_withUnboxed hw hy fun p g hp hu hg =>
        ih (hw.grows hg) (by rw [Value.rank_string]; omega) (hg.usable hx) hu
    · rw [Value.rank_string, Value.rank_object] at hfuel
      exact fine_withUnboxed hw hx fun p g hp hu hg =>
        ih (hw.grows hg) (by rw [Value.rank_string]; omega) hu (hg.usable hy)
    · rw [Value.rank_string] at hfuel
      split
      · exact fine_readNumber hx fun n hn hu => ih hw (by omega) hu hy
      · exact .ok _
    · rw [Value.rank_string] at hfuel
      split
      · exact fine_readNumber hy fun n hn hu => ih hw (by omega) hx hu
      · exact .ok _
    · rw [Value.rank_object] at hfuel
      split
      · exact fine_withUnboxed hw hy fun p g hp hu hg => ih (hw.grows hg) (by omega) (hg.usable hx) hu
      · exact .ok _
    · rw [Value.rank_object] at hfuel
      split
      · exact fine_withUnboxed hw hx fun p g hp hu hg => ih (hw.grows hg) (by omega) hu (hg.usable hy)
      · exact .ok _
    · exact .ok _

/-- Two objects are compared at once; other operands are less than four conversions away from that. -/
theorem objects_or_rank_lt (x y : Value) :
    (∃ o p, x = .object o ∧ y = .object p) ∨ x.rank + y.rank < 4 := by
  have hx := x.rank_le_two
  have hy := y.rank_le_two
  cases x with
  | object o =>
    cases y with
    | object p => exact .inl ⟨o, p, rfl, rfl⟩
    | _ => simp [Value.rank]
  | _ => exact .inr (Nat.add_lt_add_of_lt_of_le (by simp [Value.rank]) hy)

theorem fine_looseEquals (hw : h.WellFormed) {x y : Value} (hx : h.Usable x) (hy : h.Usable y) :
    Fine ((looseEquals x y).runOn h).1 := by
  have hrun : (looseEquals x y).runOn h = (looseEqualsWithin (h.objects.size + 4) x y).runOn h := rfl
  rw [hrun]
  obtain ⟨o, p, rfl, rfl⟩ | hrank := objects_or_rank_lt x y
  · exact fine_sameValue hx hy
  · exact fine_looseEqualsWithin hw (by omega) hx hy

/-! ### All operators -/

theorem fine_isIn (hw : h.WellFormed) {x y : Value} (hx : h.Usable x) (hy : h.Usable y) : Fine
    ((isIn x y).runOn h).1 := by
  cases y with
  | object o =>
    unfold isIn
    rw [runOn_withScratch]
    exact fine_lift_trackFresh (toStringRef_yields hw hx) fun key g _ hg =>
      fine_hasProperty (hw.grows hg.1) (hg.1.usable hy) hg.2
  | environment _ | function _ => exact hy.elim
  | _ => exact .error rfl

/-- The operators that resolve one operand after the other. -/
def BinaryOp.resolves : BinaryOp → Bool
  | sub | mul | div | rem => true
  | _ => false

theorem BinaryOp.fine_apply (hw : h.WellFormed) (op : BinaryOp) (hn : op.resolves = true → h.HasNext)
    {x y : Value} (hx : h.Usable x) (hy : h.Usable y) : Fine ((op.apply x y).runOn h).1 := by
  cases op with
  | add => exact fine_add hw hx hy
  | sub | mul | div | rem => exact fine_onNumbers hw (hn rfl) _ hx hy
  | less | greaterEqual => exact fine_map (fine_map (fine_relate hw hx hy true) _) _
  | greater | lessEqual => exact fine_map (fine_map (fine_relate hw hy hx false) _) _
  | looseEquals => exact fine_map (fine_looseEquals hw hx hy) _
  | looseNotEquals => exact fine_map (fine_looseEquals hw hx hy) _
  | strictEquals => exact fine_ask_bind (fine_strictEquals hx hy) fun _ _ => .ok _
  | strictNotEquals => exact fine_ask_bind (fine_strictEquals hx hy) fun _ _ => .ok _
  | isIn => exact fine_map (fine_isIn hw hx hy) _
  | instanceOf => exact fine_ask_bind (fine_instanceOf hw hx hy) fun _ _ => .ok _

/-! ### All calls -/

/-- The values that a call is made with. -/
def Call.operands : Call → List Value
  | toPrimitive v _ | toPrimitiveUnboxed v | toBoolean v | toNumber v | toDouble v | toSmallInteger v
  | toInt64 v | toInteger v | toInt32 v | toUInt32 v | toUInt16 v | toLength v | toString v
  | checkCoercible v | isCallable v | typeName v => [v]
  | sameValue x y | relate x y _ | operator _ x y => [x, y]

def Call.resolves : Call → Bool
  | operator op _ _ => op.resolves
  | _ => false

theorem Call.fine_run (hw : h.WellFormed) (c : Call) (hn : c.resolves = true → h.HasNext)
    (hc : ∀ v ∈ c.operands, h.Usable v) : Fine (c.run.runOn h).1 := by
  cases c with
  | toPrimitive v hint => exact fine_map (fine_toPrimitive hw (hc v List.mem_cons_self) hint) _
  | toPrimitiveUnboxed v => exact fine_map (fine_toPrimitiveUnboxed hw (hc v List.mem_cons_self)) _
  | toBoolean v => exact fine_ask_bind (fine_toBoolean (hc v List.mem_cons_self)) fun _ _ => .ok _
  | toNumber v => exact fine_map (fine_toNumber hw (hc v List.mem_cons_self)) _
  | toDouble v => exact fine_map (fine_toDouble hw (hc v List.mem_cons_self)) _
  | toSmallInteger v => exact fine_map (fine_toSmallInteger hw (hc v List.mem_cons_self)) _
  | toInt64 v => exact fine_ask_bind (fine_toInt64 v) fun _ _ => .ok _
  | toInteger v =>
    rw [Call.run, toInteger_eq_truncated]
    exact fine_map (fine_map (fine_toNumber hw (hc v List.mem_cons_self)) _) _
  | toInt32 v => exact fine_map (fine_toInt32 hw (hc v List.mem_cons_self)) _
  | toUInt32 v => exact fine_map (fine_toUInt32 hw (hc v List.mem_cons_self)) _
  | toUInt16 v => exact fine_map (fine_map (fine_toUInt32 hw (hc v List.mem_cons_self)) _) _
  | toLength v => exact fine_map (fine_toLength hw (hc v List.mem_cons_self)) _
  | toString v => exact fine_map (toStringRef_yields hw (hc v List.mem_cons_self)).fine _
  | checkCoercible v => exact fine_ask_bind (fine_checkCoercible v) fun _ _ => .ok _
  | isCallable v => exact fine_ask_bind (fine_isCallable (hc v List.mem_cons_self)) fun _ _ => .ok _
  | typeName v => exact fine_ask_bind (fine_typeName (hc v List.mem_cons_self)) fun _ _ => .ok _
  | sameValue x y =>
    have hsame := fine_sameValue (hc x (by simp [operands])) (hc y (by simp [operands]))
    exact fine_ask_bind hsame fun _ _ => .ok _
  | relate x y leftFirst =>
    exact fine_map (fine_relate hw (hc x (by simp [operands])) (hc y (by simp [operands])) leftFirst) _
  | operator op x y =>
    exact fine_map (op.fine_apply hw hn (hc x (by simp [operands])) (hc y (by simp [operands]))) _

namespace Heap

/-- A call changes neither objects nor the holders of what they lead to. -/
theorem HeldBelow.frame (hw : h.WellFormed) (hf : Frame h h') {limit : Nat} (hb : h.HeldBelow limit) :
    h'.HeldBelow limit := by
  intro slot entry hstores hslot
  have hstores : h.Stores (.string (.heap slot)) := by simpa only [Stores, hf.objects] using hstores
  obtain ⟨old, hold, hpos⟩ := hw.held slot hstores
  obtain rfl := Option.some.inj ((hf.held slot old hold hpos).symm.trans hslot)
  exact hb slot old hstores hold

/-! ### Wrappers -/

theorem stores_addObject {object : Object} {v : Value} :
    (h.addObject object).2.Stores v ↔ h.Stores v ∨ v ∈ object.values := by
  simp [Stores, addObject, or_and_right, exists_or]

/-- An object may be added if what it leads to is there. -/
theorem WellFormed.addObject (hw : h.WellFormed) {object : Object}
    (hheld : ∀ slot, .string (.heap slot) ∈ object.values →
      ∃ entry, h.slot? slot = some entry ∧ 1 ≤ entry.refcount)
    (hprototype : ∀ p, object.prototype? = some p → h.EndsWithin (·.prototype?) (chainLimit - 2) p)
    (htarget : ∀ p, object.payload.target? = some p → h.EndsWithin (·.payload.target?) (chainLimit - 2) p)
    (hnumber : ∀ v, object.payload = .number v → v.isNumeric = true) : (h.addObject object).2.WellFormed := by
  have hkeep : ∀ {next n o}, h.EndsWithin next n o → (h.addObject object).2.EndsWithin next n o :=
    fun hn => hn.of_objects fun o found hfound => object_addObject.mpr (.inl hfound)
  have hends : ∀ {next : Object → Option ObjectRef},
      (∀ o found, h.object o = .ok found → h.EndsWithin next (chainLimit - 1) o) →
      (∀ p, next object = some p → h.EndsWithin next (chainLimit - 2) p) →
      ∀ o found, (h.addObject object).2.object o = .ok found →
        (h.addObject object).2.EndsWithin next (chainLimit - 1) o := by
    intro next hold hnew o found hfound
    rcases object_addObject.mp hfound with hfound' | ⟨_, rfl⟩
    · exact hkeep (hold o found hfound')
    · exact ⟨found, hfound, fun p hp => hkeep (hnew p hp)⟩
  refine ⟨sound_invariant.congr hw.sound rfl rfl, fun slot hstores => ?_, hends hw.prototypes hprototype,
    hends hw.targets htarget, fun found hfound => ?_⟩
  · exact (stores_addObject.mp hstores).elim (hw.held slot) (hheld slot)
  · rcases Array.mem_push.mp hfound with hfound | rfl
    · exact hw.numbers found hfound
    · exact hnumber

/-- An object of a class alone. -/
theorem WellFormed.newOfClass (hw : h.WellFormed) {payload : ObjectClass}
    (hheld : ∀ slot, .string (.heap slot) ∈ payload.values →
      ∃ entry, h.slot? slot = some entry ∧ 1 ≤ entry.refcount)
    (htarget : payload.target? = none) (hnumber : ∀ v, payload = .number v → v.isNumeric = true) :
    (h.addObject { payload }).2.WellFormed := by
  refine hw.addObject (fun slot hmem => hheld slot ?_) (fun _ hp => nomatch hp) (fun p hp => ?_) hnumber
  · simpa [Object.values] using hmem
  · simp [htarget] at hp

theorem exists_entry_retain {slot : UInt32} (hs : h.isLive (.heap slot) = true) :
    ∃ entry, (h.retain (.string (.heap slot))).slot? slot = some entry ∧ 1 ≤ entry.refcount := by
  obtain ⟨entry, hslot⟩ := (isLive_heap h slot).mp hs
  exact ⟨{ entry with refcount := entry.refcount + 1 }, by simp [slot?_retain, hslot], Nat.le_add_left 1 _⟩

theorem wellFormed_toObject (hw : h.WellFormed) {v : Value} (hv : h.Usable v) :
    ((toObject v).runOn h).2.WellFormed := by
  have hnumber : ∀ n : Value, n.isNumeric = true → (h.addObject { payload := .number n }).2.WellFormed := by
    intro n hn
    refine hw.newOfClass (fun slot hmem => ?_) rfl fun v heq => ObjectClass.number.inj heq ▸ hn
    obtain rfl := List.mem_singleton.mp hmem
    cases hn
  cases v with
  | int32 _ | double _ | nan | infinity _ => exact hnumber _ rfl
  | boolean b => exact hw.newOfClass (fun _ hmem => nomatch hmem) rfl fun _ heq => nomatch heq
  | string s =>
    have hretained : (h.retain (.string s)).WellFormed := hw.grows (.retain hw.sound rfl)
    refine hretained.newOfClass (fun slot hmem => ?_) rfl fun _ heq => nomatch heq
    obtain rfl := Value.string.inj (List.mem_singleton.mp hmem)
    exact exists_entry_retain hv
  | environment _ | function _ => exact hv.elim
  | _ => exact hw

theorem fine_toObject {v : Value} (hv : h.Usable v) : Fine ((toObject v).runOn h).1 := by
  cases v with
  | undefined | null | none => exact .error rfl
  | environment _ | function _ => exact hv.elim
  | _ => exact .ok _

theorem HeldBelow.addObject {limit : Nat} (hb : h.HeldBelow limit) {object : Object}
    (hnew : ∀ slot entry, .string (.heap slot) ∈ object.values → h.slot? slot = some entry →
      entry.refcount < limit) : (h.addObject object).2.HeldBelow limit := by
  intro slot entry hstores hslot
  rcases stores_addObject.mp hstores with hold | hmem
  · exact hb slot entry hold hslot
  · exact hnew slot entry hmem hslot

/-- A wrapper is one holder more of its string. -/
theorem heldBelow_toObject {limit : Nat} (hb : h.HeldBelow limit) {v : Value}
    (hroom : ∀ slot entry, v = .string (.heap slot) → h.slot? slot = some entry →
      entry.refcount + 1 < limit) :
    ((toObject v).runOn h).2.HeldBelow limit := by
  cases v with
  | int32 _ | double _ | nan | infinity _ =>
    exact hb.addObject fun _ _ hmem => by simp [Object.values, ObjectClass.values] at hmem
  | boolean b => exact hb.addObject fun _ _ hmem => by simp [Object.values, ObjectClass.values] at hmem
  | string s =>
    have hwrapped : ∀ slot entry, Value.string s = .string (.heap slot) →
        (h.retain (.string s)).slot? slot = some entry → entry.refcount < limit := by
      intro slot entry heq hslot
      rw [slot?_retain, if_pos heq] at hslot
      obtain ⟨old, hold, rfl⟩ := Option.map_eq_some_iff.mp hslot
      exact hroom slot old heq hold
    have hretained : (h.retain (.string s)).HeldBelow limit := by
      intro slot entry hstores hslot
      by_cases heq : Value.string s = .string (.heap slot)
      · exact hwrapped slot entry heq hslot
      · rw [slot?_retain, if_neg heq] at hslot
        rw [Stores, objects_retain_of_isPrimitive rfl] at hstores
        exact hb slot entry hstores hslot
    refine hretained.addObject fun slot entry hmem => hwrapped slot entry ?_
    exact (List.mem_singleton.mp hmem).symm
  | _ => exact hb

end Heap

/-! ### Every call from every well-formed heap -/

/-- From a well-formed heap every call and every wrapping of usable operands ends with a result or a type
error, and leaves a well-formed heap. Holders that were fewer than a limit remain so, if the limit leaves
a wrapper room to be one more. The operators that resolve their operands need a number for one more slot: in a
heap with `2 ^ 32` strings alive the left operand may be turned into a string that goes by the number of the
right one, which is then freed in its place. -/
theorem safe_of_wellFormed (h : Heap) (hw : h.WellFormed) :
    (∀ c : Call, (∀ v ∈ c.operands, h.Usable v) →
      ((c.resolves = true → h.HasNext) → Fine (c.run.runOn h).1) ∧ (c.run.runOn h).2.WellFormed ∧
        ∀ limit, h.HeldBelow limit → (c.run.runOn h).2.HeldBelow limit) ∧
    ∀ v, h.Usable v →
      Fine ((toObject v).runOn h).1 ∧ ((toObject v).runOn h).2.WellFormed ∧
        ∀ limit, h.HeldBelow limit →
          (∀ slot entry, v = .string (.heap slot) → h.slot? slot = some entry → entry.refcount + 1 < limit) →
          ((toObject v).runOn h).2.HeldBelow limit := by
  refine ⟨fun c hc => ?_, fun v hv => ?_⟩
  · have hf := (c.run_settled h).frame hw.sound
    exact ⟨fun hn => c.fine_run hw hn hc, hw.frame hf, fun limit hb => hb.frame hw hf⟩
  · exact ⟨fine_toObject hv, wellFormed_toObject hw hv, fun limit hb hroom => heldBelow_toObject hb hroom⟩

theorem wellFormed_new (settings : HeapSettings) : (Heap.new settings).WellFormed where
  sound := sound_new settings
  held slot hstores := by simp [Stores, Heap.new] at hstores
  prototypes o object ho := by simp [object_eq_ok, Heap.new] at ho
  targets o object ho := by simp [object_eq_ok, Heap.new] at ho
  numbers object hmem := by simp [Heap.new] at hmem

theorem wellFormed_answering : Call.answering.WellFormed := by
  have hallocated := (wellFormed_new {}).grows (.allocate (sound_new {}) (Text.ofString "1"))
  have hretained := hallocated.grows (.retain hallocated.sound (p := .string (.heap 0)) rfl)
  refine hretained.addObject (fun slot hmem => ?_) (fun _ hp => nomatch hp) (fun _ hp => nomatch hp)
    fun _ heq => nomatch heq
  obtain rfl := StringRef.heap.inj (Value.string.inj (List.mem_singleton.mp hmem))
  exact exists_entry_retain (isLive_allocate (sound_new {}) _)

/-- An object that inherits the method of another, and a bound function of it. -/
def inheriting : Heap :=
  let h := (Call.answering.addObject { payload := .object, prototype? := some ⟨0⟩ }).2
  (h.addObject { payload := .function (.bound ⟨1⟩) }).2

theorem wellFormed_inheriting : inheriting.WellFormed := by
  have hfirst : Call.answering.EndsWithin (·.prototype?) (chainLimit - 2) ⟨0⟩ :=
    ⟨_, rfl, fun _ hp => nomatch hp⟩
  have hinherits :
      (Call.answering.addObject { payload := .object, prototype? := some ⟨0⟩ }).2.WellFormed := by
    refine wellFormed_answering.addObject (fun _ hmem => nomatch hmem) (fun p hp => ?_)
      (fun _ hp => nomatch hp) fun _ heq => nomatch heq
    obtain rfl := Option.some.inj hp
    exact hfirst
  refine hinherits.addObject (fun _ hmem => nomatch hmem) (fun _ hp => nomatch hp) (fun p hp => ?_)
    fun _ heq => nomatch heq
  obtain rfl := Option.some.inj hp
  exact ⟨_, rfl, fun _ hp => nomatch hp⟩

/-- The difference of an object and of the string that it answers with. -/
theorem safe_of_wellFormed_inheriting :
    Fine ((Call.operator .sub (.object ⟨1⟩) (.string (.heap 0))).run.runOn inheriting).1 ∧
      ((toObject (.string (.heap 0))).runOn inheriting).2.WellFormed := by
  have hn : inheriting.HasNext := by
    show (1 : Nat) < 2 ^ 32
    decide
  have hstring : inheriting.Usable (.string (.heap 0)) := by
    show inheriting.isLive (.heap 0) = true
    decide
  have hsafe := safe_of_wellFormed inheriting wellFormed_inheriting
  have hsub := hsafe.1 (.operator .sub (.object ⟨1⟩) (.string (.heap 0))) fun v hv => by
    simp only [Call.operands, List.mem_cons, List.not_mem_nil, or_false] at hv
    rcases hv with rfl | rfl
    · exact ⟨_, rfl⟩
    · exact hstring
  exact ⟨hsub.1 fun _ => hn, (hsafe.2 _ hstring).2.1⟩

end ScriptCore
