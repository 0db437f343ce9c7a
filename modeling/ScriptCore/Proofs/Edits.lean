import ScriptCore.Proofs.Calls

/-! What computations do to strings.

However long a computation is and however it ends, it does to the strings of a heap only what the heap
offers: it allocates, retains, releases and recalls, and it changes what is beside the strings (`Edits`). So a
property of the slots that the four operations keep is kept by every conversion and every operator
(`Call.run_edits`), and a proof about slots need not look into any of them. -/
namespace ScriptCore

open Heap

/-! ### Edits -/

/-- The heaps that a heap becomes by operations on strings, in any order, and by changes that leave the
strings, the free list and the counters alone. -/
inductive Heap.Edits (h : Heap) : Heap → Prop where
  | refl : Edits h h
  | allocate {h'} (t : Text) : Edits h h' → Edits h (h'.allocate t).2
  | retain {h'} (v : Value) : Edits h h' → Edits h (h'.retain v)
  | release {h'} (v : Value) : Edits h h' → Edits h (h'.release v)
  | reclaim {h'} (s : StringRef) : Edits h h' → Edits h (h'.reclaim s)
  | beside {h' h''} : Edits h h' → h''.strings = h'.strings → h''.freeSlots = h'.freeSlots →
      h''.stats = h'.stats → Edits h h''

namespace Heap.Edits

variable {h h' h'' : Heap}

theorem trans (he : Edits h h') (he' : Edits h' h'') : Edits h h'' := by
  induction he' with
  | refl => exact he
  | allocate t _ ih => exact ih.allocate t
  | retain v _ ih => exact ih.retain v
  | release v _ ih => exact ih.release v
  | reclaim s _ ih => exact ih.reclaim s
  | beside _ hstrings hfree hstats ih => exact ih.beside hstrings hfree hstats

theorem retainAll (values : List Value) (he : Edits h h') : Edits h (values.foldl Heap.retain h') := by
  induction values generalizing h' with
  | nil => exact he
  | cons v rest ih => exact ih (he.retain v)

theorem recallAll (scratch : Scratch) (he : Edits h h') : Edits h (scratch.recallAll h') := by
  obtain ⟨strings⟩ := scratch
  show Edits h (strings.foldl Heap.reclaim h')
  induction strings generalizing h' with
  | nil => exact he
  | cons s rest ih => exact ih (he.reclaim s)

theorem addObject (object : Object) (he : Edits h h') : Edits h (h'.addObject object).2 := he.beside rfl rfl rfl

end Heap.Edits

/-! ### Computations that edit -/

variable {α β : Type}

namespace HeapM

/-- A computation edits whatever heap it runs on. -/
def Editing (a : HeapM α) : Prop := ∀ h, Edits h (a.runOn h).2

variable {a : HeapM α}

theorem Editing.pure (x : α) : (pure x : HeapM α).Editing := fun _ => .refl

theorem Editing.throw (e : Error) : (throw e : HeapM α).Editing := fun _ => .refl

theorem Editing.ask (question : Heap → Except Error α) : (ask question).Editing := fun _ => .refl

theorem Editing.newString (t : Text) : (newString t).Editing := fun _ => .allocate t .refl

theorem Editing.ite {c : Prop} [Decidable c] {b : HeapM α} (ha : a.Editing) (hb : b.Editing) :
    (if c then a else b).Editing := by
  split
  · exact ha
  · exact hb

theorem Editing.bind (ha : a.Editing) {f : α → HeapM β} (hf : ∀ x, (f x).Editing) : (a >>= f).Editing := by
  intro h
  have he := ha h
  rw [runOn_bind]
  cases hrun : a.runOn h with
  | mk outcome h' =>
    rw [hrun] at he
    cases outcome with
    | error e => exact he
    | ok x => exact he.trans (hf x h')

/-- A computation with another result. -/
theorem Editing.map (ha : a.Editing) (g : α → β) : (a >>= fun x => Pure.pure (g x)).Editing :=
  ha.bind fun x => .pure (g x)

theorem Editing.ask_bind (question : Heap → Except Error α) {f : α → HeapM β} (hf : ∀ x, (f x).Editing) :
    (HeapM.ask question >>= f).Editing := (Editing.ask question).bind hf

theorem Editing.withTransient (v : Value) (ha : a.Editing) : (withTransient v a).Editing :=
  fun h => (((Edits.refl (h := h)).retain v).trans (ha (h.retain v))).release v

end HeapM

namespace ScratchM

def Editing (a : ScratchM α) : Prop := ∀ s h, Edits h (a.runOn s h).2

theorem Editing.lift {a : HeapM α} (ha : a.Editing) : (ScratchM.lift a).Editing := fun _ h => ha h

theorem Editing.bind {a : ScratchM α} (ha : a.Editing) {f : α → ScratchM β} (hf : ∀ x, (f x).Editing) :
    (a >>= f).Editing := by
  intro s h
  have he := ha s h
  rw [runOn_bind]
  cases hrun : a.runOn s h with
  | mk outcome h' =>
    obtain ⟨result, s'⟩ := outcome
    rw [hrun] at he
    cases result with
    | error e => exact he
    | ok x => exact he.trans (hf x s' h')

theorem Editing.trackFresh (v : Value) (r : StringRef) : (trackFresh v r).Editing :=
  fun s h => by rw [runOn_trackFresh]; exact .refl

end ScratchM

theorem HeapM.Editing.withScratch {body : ScratchM α} (hbody : body.Editing) :
    (withScratch body).Editing := fun h => (hbody {} h).recallAll _

/-! ### Conversions -/

section Conversions
open HeapM

theorem dateToString_editing (o : ObjectRef) : (dateToString o).Editing := by
  refine .ask_bind _ fun payload => ?_
  split
  · split
    · exact .newString _
    · exact .pure _
  · exact .throw _

theorem intrinsicValueOf_editing (o : ObjectRef) : (intrinsicValueOf o).Editing := by
  refine .ask_bind _ fun payload => ?_
  split <;> exact .pure _

theorem intrinsicToString_editing (o : ObjectRef) : (intrinsicToString o).Editing := by
  refine .ask_bind _ fun payload => ?_
  cases payload with
  | number v => exact .pure _
  | boolean b => exact .pure _
  | string s => exact .pure _
  | date time => exact (dateToString_editing o).map _
  | object => exact (Editing.newString _).map _
  | function f => exact (Editing.newString _).map _
  | array => exact .ask_bind _ fun text => (Editing.newString text).map _

theorem callMethod_editing (o : ObjectRef) (m : Method) : (callMethod o m).Editing := by
  refine .ask_bind _ fun hook? => ?_
  match hook?, m with
  | some (.answer v), _ => exact .pure v
  | some (.freshString text), _ => exact (Editing.newString _).map _
  | some .receiver, _ => exact .pure _
  | some (.throws message), _ => exact .throw _
  | none, .valueOf => exact intrinsicValueOf_editing o
  | none, .toString => exact intrinsicToString_editing o

theorem defaultValue_editing (o : ObjectRef) (hint : Hint) : (defaultValue o hint).Editing := by
  have hlog : (HeapM.change (·.logConversion o hint)).Editing := fun _ => .beside .refl rfl rfl rfl
  refine hlog.bind fun _ => (callMethod_editing o _).bind fun v => .ite (.pure v) ?_
  exact (callMethod_editing o _).bind fun v => .ite (.pure v) (.throw _)

theorem toPrimitive_editing (v : Value) (hint : Hint) : (toPrimitive v hint).Editing := by
  cases v with
  | object o =>
    refine .ask_bind _ fun _ => .ite ((dateToString_editing o).map _) ?_
    exact (defaultValue_editing o hint).bind fun p => .ite (.pure p) (.throw _)
  | _ => exact .pure _

theorem toPrimitiveUnboxed_editing (v : Value) : (toPrimitiveUnboxed v).Editing := by
  cases v with
  | object o =>
    refine .ask_bind _ fun payload => ?_
    split
    · exact .pure _
    · exact .pure _
    · exact toPrimitive_editing _ _
  | _ => exact .pure _

theorem withPrimitive_editing (v : Value) (hint : Hint) {body : Value → HeapM α}
    (hbody : ∀ p, (body p).Editing) : (withPrimitive v hint body).Editing := by
  cases v with
  | object o => exact (toPrimitive_editing _ hint).bind fun p => .withTransient p (hbody p)
  | _ => exact hbody _

theorem toNumber_editing (v : Value) : (toNumber v).Editing := withPrimitive_editing v _ fun _ => .ask _

theorem toDouble_editing (v : Value) : (toDouble v).Editing := (toNumber_editing v).map _

theorem toUInt32_editing (v : Value) : (toUInt32 v).Editing := by
  cases v with
  | int32 n => exact .pure _
  | _ => exact (toDouble_editing _).map _

theorem toInt32_editing (v : Value) : (toInt32 v).Editing := by
  cases v with
  | int32 n => exact .pure _
  | _ => exact (toUInt32_editing _).map _

theorem toSmallInteger_editing (v : Value) : (toSmallInteger v).Editing := by
  cases v with
  | int32 n => exact .pure _
  | boolean b => exact .pure _
  | _ => exact toInt32_editing _

theorem primitiveToString_editing (v : Value) : (primitiveToString v).Editing := by
  cases v with
  | int32 n => exact .ite (.pure _) (.newString _)
  | double d => exact .ite (.pure _) (.newString _)
  | object _ | environment _ | function _ => exact .throw _
  | boolean b => cases b <;> exact .pure _
  | infinity sign => cases sign <;> exact .pure _
  | _ => exact .pure _

theorem toStringRef_editing (v : Value) : (toStringRef v).Editing := by
  cases v with
  | object o =>
    refine (toPrimitive_editing _ _).bind fun p => ?_
    split
    · exact .pure _
    · exact .withTransient p (primitiveToString_editing p)
  | _ => exact primitiveToString_editing _

theorem toObject_editing (v : Value) : (toObject v).Editing := by
  have hadded : ∀ payload, (newOfClass payload).Editing := fun _ _ => .addObject _ .refl
  cases v with
  | object o => exact .pure o
  | int32 _ | double _ | nan | infinity _ => exact .ite (hadded _) (.throw _)
  | boolean b => exact hadded _
  | string s => exact fun h => ((Edits.refl (h := h)).retain (.string s)).addObject _
  | undefined | null | none | environment _ | function _ => exact .throw _

/-! ### Operators -/

theorem joinStrings_editing (left right : StringRef) : (joinStrings left right).Editing :=
  .ask_bind _ fun text => (Editing.newString text).map _

theorem addPrimitives_editing (left right : Value) : (addPrimitives left right).Editing := by
  refine .ite (.withScratch ?_) (.ask_bind _ fun a => .ask_bind _ fun b => .pure _)
  refine (ScratchM.Editing.lift (primitiveToString_editing left)).bind fun l => ?_
  refine (ScratchM.Editing.trackFresh left l).bind fun _ => ?_
  refine (ScratchM.Editing.lift (primitiveToString_editing right)).bind fun r => ?_
  exact (ScratchM.Editing.trackFresh right r).bind fun _ => .lift (joinStrings_editing l r)

theorem addGeneric_editing (x y : Value) : (addGeneric x y).Editing :=
  withPrimitive_editing x _ fun p => withPrimitive_editing y _ fun q => addPrimitives_editing p q

theorem add_editing (x y : Value) : (add x y).Editing := by
  rcases add_cases x y with hsame | ⟨-, -, hnan⟩
  · rw [hsame]
    exact addGeneric_editing x y
  · rw [hnan]
    exact .pure _

theorem resolve_editing (v : Value) : (resolve v).Editing := by
  cases v with
  | object o =>
    refine .ask_bind _ fun payload => ?_
    cases payload with
    | string s => exact .ask_bind _ fun t => .pure _
    | object | array | date _ => exact (withPrimitive_editing _ _ fun _ => .ask _).map _
    | _ => exact .pure _
  | function _ => exact .pure _
  | environment _ => exact .throw _
  | _ => exact .ask_bind _ fun n => .pure _

theorem onNumbers_editing (compute : Value → Value → Value) (x y : Value) :
    (onNumbers compute x y).Editing := by
  refine (resolve_editing x).bind fun a? => ?_
  cases a? with
  | none => exact .pure _
  | some a =>
    refine (resolve_editing y).bind fun b? => ?_
    cases b? <;> exact .pure _

theorem relate_editing (x y : Value) (leftFirst : Bool) : (relate x y leftFirst).Editing := by
  have hcompare : ∀ first second : Value, ∀ question : Value → Value → Heap → Except Error Relation,
      (withPrimitive first .number fun p =>
        withPrimitive second .number fun q => HeapM.ask (question p q)).Editing :=
    fun first second question =>
      withPrimitive_editing first _ fun p => withPrimitive_editing second _ fun q => .ask _
  unfold relate
  split
  · exact .pure _
  · exact .ite (.pure _) (.ite (.pure _) (.ite (hcompare x y _) (hcompare y x fun p q => _)))

theorem withUnboxed_editing (v : Value) {compare : Value → HeapM Bool} (hc : ∀ p, (compare p).Editing) :
    (withUnboxed v compare).Editing :=
  (toPrimitiveUnboxed_editing v).bind fun p => .withTransient p (hc p)

theorem looseEqualsWithin_editing (fuel : Nat) (x y : Value) : (looseEqualsWithin fuel x y).Editing := by
  induction fuel generalizing x y with
  | zero => exact .throw _
  | succ fuel ih =>
    unfold looseEqualsWithin
    generalize x.undefinedIfNone = x'
    generalize y.undefinedIfNone = y'
    refine .ite (.ask _) (.ite (.ask _) ?_)
    split
    · exact .pure _
    · exact .pure _
    · exact .ask _
    · exact .ask _
    · exact ih _ _
    · exact ih _ _
    · exact withUnboxed_editing _ fun p => ih _ p
    · exact withUnboxed_editing _ fun p => ih p _
    · exact .ite (.ask_bind _ fun n => ih n _) (.pure _)
    · exact .ite (.ask_bind _ fun n => ih _ n) (.pure _)
    · exact .ite (withUnboxed_editing _ fun p => ih _ p) (.pure _)
    · exact .ite (withUnboxed_editing _ fun p => ih p _) (.pure _)
    · exact .pure _

theorem looseEquals_editing (x y : Value) : (looseEquals x y).Editing :=
  fun h => looseEqualsWithin_editing (h.objects.size + 4) x y h

theorem isIn_editing (x y : Value) : (isIn x y).Editing := by
  cases y with
  | object o =>
    refine .withScratch ((ScratchM.Editing.lift (toStringRef_editing x)).bind fun key => ?_)
    exact (ScratchM.Editing.trackFresh x key).bind fun _ => .lift (.ask _)
  | _ => exact .throw _

theorem BinaryOp.apply_editing (op : BinaryOp) (x y : Value) : (op.apply x y).Editing := by
  cases op with
  | add => exact add_editing x y
  | sub | mul | div | rem => exact onNumbers_editing _ x y
  | less | greaterEqual => exact ((relate_editing x y true).map _).map _
  | greater | lessEqual => exact ((relate_editing y x false).map _).map _
  | looseEquals | looseNotEquals => exact (looseEquals_editing x y).map _
  | strictEquals | strictNotEquals | instanceOf => exact (Editing.ask _).map _
  | isIn => exact (isIn_editing x y).map _

/-- Every call edits the heap, whether it succeeds or fails. -/
theorem Call.run_edits (c : Call) (h : Heap) : Edits h (c.run.runOn h).2 := by
  have hediting : c.run.Editing := by
    cases c with
    | toPrimitive v hint => exact (toPrimitive_editing v hint).map _
    | toPrimitiveUnboxed v => exact (toPrimitiveUnboxed_editing v).map _
    | toNumber v => exact (toNumber_editing v).map _
    | toDouble v => exact (toDouble_editing v).map _
    | toSmallInteger v => exact (toSmallInteger_editing v).map _
    | toInteger v =>
      rw [Call.run, toInteger_eq_truncated]
      exact ((toNumber_editing v).map _).map _
    | toInt32 v => exact (toInt32_editing v).map _
    | toUInt32 v => exact (toUInt32_editing v).map _
    | toUInt16 v => exact ((toUInt32_editing v).map _).map _
    | toLength v => exact (withPrimitive_editing v _ fun _ => .ask _).map _
    | toString v => exact (toStringRef_editing v).map _
    | relate x y leftFirst => exact (relate_editing x y leftFirst).map _
    | operator op x y => exact (op.apply_editing x y).map _
    | toBoolean | toInt64 | checkCoercible | isCallable | typeName | sameValue =>
      exact (Editing.ask _).map _
  exact hediting h

end Conversions
end ScriptCore
