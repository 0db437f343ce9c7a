import ScriptCore.OperandStack
import ScriptCore.Proofs.Addition
import ScriptCore.Proofs.Conversions

/-! Calls of conversions and operators.

A `Call` is a conversion or an operator with its operands. Every call settles, whatever the operands are
and wherever it fails: it frames the heap (`Call.run_frame`) and leaves no string behind but the one that
it answers with (`Call.run_leftover`). Each function has one lemma, which says that it settles and how many strings
it makes at most. -/
namespace ScriptCore

open Heap HeapM

variable {α : Type} {m n : Nat} {made : α → List StringRef}

/-! ### Conversions to primitive values -/

/-- Whether a conversion is noted first makes no difference to what is left behind. -/
theorem settled_of_answers {a : HeapM Value} (o : ObjectRef) (hint : Hint)
    (ha : ∀ h : Heap, h.Answers (a.runOn h) ∨ (h.logConversion o hint).Answers (a.runOn h)) :
    a.Settled 1 Value.strings := by
  intro h
  rcases ha h with hr | hr
  · exact hr.settles
  · exact ((Settles.logConversion h o hint).trans hr.settles).mono (by omega) fun _ hmem => hmem

theorem toPrimitive_settled (v : Value) (hint : Hint) : (toPrimitive v hint).Settled 1 Value.strings := by
  cases v with
  | object o => exact settled_of_answers o hint fun h => toPrimitive_answers h o hint
  | _ => exact (Settled.pure _ _).mono (by omega)

theorem toPrimitiveUnboxed_answers (h : Heap) (o : ObjectRef) :
    h.Answers ((toPrimitiveUnboxed (.object o)).runOn h) ∨
      (h.logConversion o .default).Answers ((toPrimitiveUnboxed (.object o)).runOn h) := by
  simp only [toPrimitiveUnboxed, runOn_bind, runOn_ask]
  cases hclass : h.objectClass o with
  | error e => exact .inl (.fails e)
  | ok payload =>
    cases payload with
    | number v =>
      exact .inl (.known v fun _ _ => stores_of_payload hclass (by simp [ObjectClass.values]))
    | boolean b => exact .inl (.of_not_counted rfl)
    | _ => exact toPrimitive_answers h o .default

theorem toPrimitiveUnboxed_settled (v : Value) : (toPrimitiveUnboxed v).Settled 1 Value.strings := by
  cases v with
  | object o => exact settled_of_answers o .default fun h => toPrimitiveUnboxed_answers h o
  | _ => exact (Settled.pure _ _).mono (by omega)

theorem withPrimitive_settled (v : Value) (hint : Hint) {body : Value → HeapM α}
    (hbody : ∀ p, (body p).Settled n made) : (withPrimitive v hint body).Settled (1 + n) made := by
  cases v with
  | object o => exact (toPrimitive_settled _ hint).bind_transient hbody
  | _ => exact (hbody _).mono (by omega)

/-! ### Conversions to numbers -/

theorem toNumber_settled (v : Value) : (toNumber v).Settled 1 nothing :=
  withPrimitive_settled v .number fun _ => .ask _ _

theorem toDouble_settled (v : Value) : (ScriptCore.toDouble v).Settled 1 nothing :=
  (toNumber_settled v).map fun _ => List.nil_subset _

theorem toInteger_settled (v : Value) : (toInteger v).Settled 1 nothing := by
  rw [toInteger_eq_truncated]
  exact (toNumber_settled v).map fun _ => List.nil_subset _

theorem toUInt32_settled (v : Value) : (ScriptCore.toUInt32 v).Settled 1 nothing := by
  unfold ScriptCore.toUInt32
  split
  · exact (Settled.pure _ _).mono (by omega)
  · exact (toDouble_settled _).map fun _ => List.nil_subset _

theorem toInt32_settled (v : Value) : (ScriptCore.toInt32 v).Settled 1 nothing := by
  unfold ScriptCore.toInt32
  split
  · exact (Settled.pure _ _).mono (by omega)
  · exact (toUInt32_settled _).map fun _ => List.nil_subset _

theorem toUInt16_settled (v : Value) : (ScriptCore.toUInt16 v).Settled 1 nothing :=
  (toUInt32_settled v).map fun _ => List.nil_subset _

theorem toSmallInteger_settled (v : Value) : (toSmallInteger v).Settled 1 nothing := by
  unfold toSmallInteger
  split
  · exact (Settled.pure _ _).mono (by omega)
  · exact (Settled.pure _ _).mono (by omega)
  · exact toInt32_settled _

theorem toLength_settled (v : Value) : (toLength v).Settled 1 nothing :=
  withPrimitive_settled v .number fun _ => .ask _ _

/-! ### Conversions to strings -/

theorem primitiveToString_settled (v : Value) : (primitiveToString v).Settled 1 (madeFor v) := by
  have hnone : ∀ {r : HeapM StringRef}, r.Settled 0 (madeFor v) → r.Settled 1 (madeFor v) :=
    fun hr => hr.mono (by omega)
  cases v with
  | int32 k => exact .ite (hnone (.pure _ _)) (.newString _)
  | double d => exact .ite (hnone (.pure _ _)) (.newString _)
  | boolean b => cases b <;> exact hnone (.pure _ _)
  | infinity sign => cases sign <;> exact hnone (.pure _ _)
  | object _ | environment _ | function _ => exact hnone (.throw _ _)
  | _ => exact hnone (.pure _ _)

theorem madeFor_eq {v : Value} (hv : v.isString = false) : madeFor v = fun s => [s] := by
  funext s
  simp [madeFor, hv]

theorem toStringRef_settled (v : Value) : (toStringRef v).Settled 2 (madeFor v) := by
  cases v with
  | object o =>
    refine (toPrimitive_settled _ .string).bind_of (n := 1) fun p h₀ h hs => ?_
    have hmade := primitiveToString_settled p
    split
    · exact hs.mono (by omega) fun _ hmem => hmem
    · rename_i hstring
      rw [madeFor_eq (by cases p <;> simp_all [Value.isString])] at hmade
      exact hs.transient (hmade (h.retain p))
  | _ => exact (primitiveToString_settled _).mono (by omega)

/-! ### Addition -/

theorem joinStrings_settled (left right : StringRef) : (joinStrings left right).Settled 1 Value.strings :=
  .ask_bind _ fun t => (Settled.newString t).map fun s => List.Subset.refl [s]

theorem addPrimitives_settled (left right : Value) : (addPrimitives left right).Settled 3 Value.strings := by
  unfold addPrimitives
  split
  · exact .withScratch <| .lift_trackFresh (n := 2) (primitiveToString_settled left) fun leftString =>
      .lift_trackFresh (n := 1) (primitiveToString_settled right) fun rightString =>
        .lift (joinStrings_settled leftString rightString)
  · refine (Settled.ask_bind _ fun a => .ask_bind _ fun b => ?_).mono (m := 0) (by omega)
    exact .pure _ _

theorem addGeneric_settled (x y : Value) : (addGeneric x y).Settled 5 Value.strings :=
  withPrimitive_settled x .default (n := 4) fun left =>
    withPrimitive_settled y .default (n := 3) fun right => addPrimitives_settled left right

theorem add_settled (x y : Value) : (add x y).Settled 5 Value.strings := by
  rcases add_cases x y with hsame | ⟨-, -, hnan⟩
  · rw [hsame]
    exact addGeneric_settled x y
  · rw [hnan]
    exact (Settled.pure _ _).mono (by omega)

/-! ### The other arithmetic operators -/

theorem resolve_settled (v : Value) : (resolve v).Settled 1 nothing := by
  unfold resolve
  split
  · refine .ask_bind _ fun payload => ?_
    cases payload with
    | object | array | date _ =>
      exact (withPrimitive_settled _ .number fun _ => .ask _ _).map fun _ => List.nil_subset _
    | string s => exact Settled.mono (m := 0) (.ask_bind _ fun _ => .pure _ _) (by omega)
    | _ => exact Settled.mono (m := 0) (.pure _ _) (by omega)
  · exact Settled.mono (m := 0) (.pure _ _) (by omega)
  · exact Settled.mono (m := 0) (.throw _ _) (by omega)
  · exact Settled.mono (m := 0) (.ask_bind _ fun _ => .pure _ _) (by omega)

theorem onNumbers_settled (compute : Value → Value → Value) (x y : Value) :
    (onNumbers compute x y).Settled 2 nothing := by
  refine (resolve_settled x).bind (n := 1) fun a? => ?_
  cases a? with
  | none => exact Settled.mono (m := 0) (.pure _ _) (by omega)
  | some a =>
    refine (resolve_settled y).bind (n := 0) fun b? => ?_
    cases b? <;> exact .pure _ _

/-! ### Comparisons -/

theorem relate_settled (x y : Value) (leftFirst : Bool) : (relate x y leftFirst).Settled 2 nothing := by
  have hcompare : ∀ first second : Value, ∀ body : Value → Value → HeapM Relation,
      (∀ p q, (body p q).Settled 0 nothing) →
      (withPrimitive first .number fun p => withPrimitive second .number (body p)).Settled 2 nothing :=
    fun first second body hbody =>
      withPrimitive_settled first .number (n := 1) fun p => withPrimitive_settled second .number (hbody p)
  have hpure : ∀ r, (pure r : HeapM Relation).Settled 2 nothing := fun r => (Settled.pure r _).mono (by omega)
  unfold relate
  split
  · exact hpure _
  · refine .ite (hpure _) (.ite (hpure _) (.ite ?_ ?_))
    · exact hcompare x y _ fun _ _ => .ask _ _
    · exact hcompare y x _ fun _ _ => .ask _ _

/-- A comparison bracketed around an answer. A new string is never compared with an object again, so that
the comparison makes no second one. -/
theorem transient_settles_of_answers {h h₁ : Heap} (hstart : Settles 0 [] h h₁) {a : HeapM Value}
    (ha : h₁.Answers (a.runOn h)) {compare : Value → HeapM Bool}
    (hstring : ∀ s, (compare (.string s)).Settled 0 nothing) (hvalue : ∀ v, (compare v).Settled 1 nothing) :
    Settles 1 (handed nothing ((a >>= fun v => withTransient v (compare v)).runOn h).1) h
      ((a >>= fun v => withTransient v (compare v)).runOn h).2 := by
  rw [runOn_bind]
  cases hrun : a.runOn h with
  | mk outcome h' =>
    rw [hrun] at ha
    cases ha with
    | fails e => exact hstart.mono (by omega) fun _ hmem => hmem
    | known v hv =>
      have hknown : Settles 0 v.string?.toList h h₁ := hstart.mono (by omega) fun _ hmem => by simp at hmem
      exact hknown.transient (hvalue v _)
    | fresh t =>
      have hfresh : Settles (0 + 1) ([] ++ [(h₁.allocate t).1]) h (h₁.allocate t).2 :=
        hstart.trans (.allocate h₁ t)
      exact hfresh.transient (v := .string (h₁.allocate t).1) (hstring _ _)

theorem withUnboxed_settled (o : ObjectRef) {compare : Value → HeapM Bool}
    (hstring : ∀ s, (compare (.string s)).Settled 0 nothing) (hvalue : ∀ v, (compare v).Settled 1 nothing) :
    (withUnboxed (.object o) compare).Settled 1 nothing := by
  intro h
  rcases toPrimitiveUnboxed_answers h o with hr | hr
  · exact transient_settles_of_answers (.refl _ h) hr hstring hvalue
  · exact transient_settles_of_answers (.logConversion h o .default) hr hstring hvalue

theorem Value.isObject_undefinedIfNone {v : Value} (hv : v.isObject = false) :
    v.undefinedIfNone.isObject = false := by
  cases v with
  | none => rfl
  | _ => exact hv

theorem Value.isObject_of_isNumeric {v : Value} (hv : v.isNumeric = true) : v.isObject = false := by
  cases v with
  | object o => simp [isNumeric, type, ValueType.isNumeric] at hv
  | _ => rfl

/-- Between values that are no objects no method is run and no string is made. -/
theorem looseEqualsWithin_settled_of_not_object (fuel : Nat) (x y : Value) (hx : x.isObject = false)
    (hy : y.isObject = false) : (looseEqualsWithin fuel x y).Settled 0 nothing := by
  induction fuel generalizing x y with
  | zero => exact .throw _ _
  | succ fuel ih =>
    have hnumber : ∀ {h : Heap} {v n : Value}, h.primitiveToNumber v = .ok n → n.isObject = false :=
      fun hn => Value.isObject_of_not_counted (isCounted_of_primitiveToNumber hn)
    unfold looseEqualsWithin
    generalize hx' : x.undefinedIfNone = x'
    generalize hy' : y.undefinedIfNone = y'
    have hxo : x'.isObject = false := hx' ▸ Value.isObject_undefinedIfNone hx
    have hyo : y'.isObject = false := hy' ▸ Value.isObject_undefinedIfNone hy
    refine .ite (.ask _ _) (.ite (.ask _ _) ?_)
    split
    · exact .pure _ _
    · exact .pure _ _
    · exact .ask _ _
    · exact .ask _ _
    · exact ih _ _ rfl hyo
    · exact ih _ _ hxo rfl
    · simp [Value.isObject] at hyo
    · simp [Value.isObject] at hxo
    · exact .ite (.ask_bind_of _ fun _ _ hn => ih _ _ (hnumber hn) hyo) (.pure _ _)
    · exact .ite (.ask_bind_of _ fun _ _ hn => ih _ _ hxo (hnumber hn)) (.pure _ _)
    · simp [Value.isObject] at hyo
    · simp [Value.isObject] at hxo
    · exact .pure _ _

theorem looseEqualsWithin_settled (fuel : Nat) (x y : Value) :
    (looseEqualsWithin fuel x y).Settled 1 nothing := by
  induction fuel generalizing x y with
  | zero => exact Settled.mono (m := 0) (.throw _ _) (by omega)
  | succ fuel ih =>
    have hpure : ∀ b, (pure b : HeapM Bool).Settled 1 nothing := fun b => (Settled.pure b _).mono (by omega)
    have hask : ∀ question : Heap → Except Error Bool, (ask question).Settled 1 nothing :=
      fun question => (Settled.ask question _).mono (by omega)
    unfold looseEqualsWithin
    generalize x.undefinedIfNone = x'
    generalize y.undefinedIfNone = y'
    refine .ite (hask _) (.ite (hask _) ?_)
    split
    · exact hpure _
    · exact hpure _
    · exact hask _
    · exact hask _
    · exact ih _ _
    · exact ih _ _
    · refine withUnboxed_settled _ (fun s => ?_) fun v => ih _ _
      exact looseEqualsWithin_settled_of_not_object fuel _ _ rfl rfl
    · refine withUnboxed_settled _ (fun s => ?_) fun v => ih _ _
      exact looseEqualsWithin_settled_of_not_object fuel _ _ rfl rfl
    · exact .ite (.ask_bind _ fun _ => ih _ _) (hpure _)
    · exact .ite (.ask_bind _ fun _ => ih _ _) (hpure _)
    · split
      · rename_i hnumeric
        refine withUnboxed_settled _ (fun s => ?_) fun v => ih _ _
        exact looseEqualsWithin_settled_of_not_object fuel _ _ (Value.isObject_of_isNumeric hnumeric) rfl
      · exact hpure _
    · split
      · rename_i hnumeric
        refine withUnboxed_settled _ (fun s => ?_) fun v => ih _ _
        exact looseEqualsWithin_settled_of_not_object fuel _ _ rfl (Value.isObject_of_isNumeric hnumeric)
      · exact hpure _
    · exact hpure _

theorem looseEquals_settled (x y : Value) : (looseEquals x y).Settled 1 nothing := by
  intro h
  have hrun : (looseEquals x y).runOn h = (looseEqualsWithin (h.objects.size + 4) x y).runOn h := rfl
  rw [hrun]
  exact looseEqualsWithin_settled _ x y h

/-! ### All operators -/

theorem isIn_settled (x y : Value) : (isIn x y).Settled 2 nothing := by
  cases y with
  | object o =>
    exact .withScratch <| .lift_trackFresh (n := 0) (toStringRef_settled x) fun key => .lift (.ask _ _)
  | _ => exact Settled.mono (m := 0) (.throw _ _) (by omega)

theorem BinaryOp.apply_settled (op : BinaryOp) (x y : Value) : (op.apply x y).Settled 5 Value.strings := by
  have hnumber : ∀ {a : HeapM Value}, a.Settled 2 nothing → a.Settled 5 Value.strings :=
    fun ha => (ha.mono (by omega)).handing fun _ => List.nil_subset _
  have htruth : ∀ {β : Type} {k : Nat} {a : HeapM β} {g : β → Bool}, k ≤ 5 → a.Settled k nothing →
      (a >>= fun b => pure (.boolean (g b)) : HeapM Value).Settled 5 Value.strings :=
    fun hk ha => (ha.mono hk).map fun _ => List.nil_subset _
  have hask : ∀ question : Heap → Except Error Bool, (ask question).Settled 0 nothing :=
    fun question => .ask question _
  have hrelate : ∀ (f : Relation → Bool) (x y : Value) (leftFirst : Bool),
      (relate x y leftFirst >>= fun r => pure (f r) : HeapM Bool).Settled 2 nothing :=
    fun f x y leftFirst => (relate_settled x y leftFirst).map fun _ => List.nil_subset _
  cases op with
  | add => exact add_settled x y
  | sub => exact hnumber (onNumbers_settled _ x y)
  | mul => exact hnumber (onNumbers_settled _ x y)
  | div => exact hnumber (onNumbers_settled _ x y)
  | rem => exact hnumber (onNumbers_settled _ x y)
  | less => exact htruth (g := id) (by omega) (hrelate (· == .less) x y true)
  | greater => exact htruth (g := id) (by omega) (hrelate (· == .less) y x false)
  | lessEqual => exact htruth (g := id) (by omega) (hrelate (· == .notLess) y x false)
  | greaterEqual => exact htruth (g := id) (by omega) (hrelate (· == .notLess) x y true)
  | looseEquals => exact htruth (g := id) (by omega) (looseEquals_settled x y)
  | looseNotEquals => exact htruth (g := not) (by omega) (looseEquals_settled x y)
  | strictEquals => exact htruth (g := id) (by omega) (hask _)
  | strictNotEquals => exact htruth (g := not) (by omega) (hask _)
  | isIn => exact htruth (g := id) (by omega) (isIn_settled x y)
  | instanceOf => exact htruth (g := id) (by omega) (hask _)

/-! ### Calls -/

/-- What a call answers with. -/
inductive Answer where
  | done
  | value (v : Value)
  | double (d : Double)
  | integer (n : Int)
  | truth (b : Bool)
  | relation (r : Relation)
deriving DecidableEq

/-- The string that an answer is. -/
def Answer.string? : Answer → Option StringRef
  | value v => v.string?
  | _ => none

def Answer.strings (a : Answer) : List StringRef := a.string?.toList

/-- The conversions and the operators, with their operands. -/
inductive Call where
  | toPrimitive (v : Value) (hint : Hint)
  | toPrimitiveUnboxed (v : Value)
  | toBoolean (v : Value)
  | toNumber (v : Value)
  | toDouble (v : Value)
  | toSmallInteger (v : Value)
  | toInt64 (v : Value)
  | toInteger (v : Value)
  | toInt32 (v : Value)
  | toUInt32 (v : Value)
  | toUInt16 (v : Value)
  | toLength (v : Value)
  | toString (v : Value)
  | checkCoercible (v : Value)
  | isCallable (v : Value)
  | typeName (v : Value)
  | sameValue (x y : Value)
  | relate (x y : Value) (leftFirst : Bool)
  | operator (op : BinaryOp) (x y : Value)

namespace Call

def run : Call → HeapM Answer
  | toPrimitive v hint => return .value (← ScriptCore.toPrimitive v hint)
  | toPrimitiveUnboxed v => return .value (← ScriptCore.toPrimitiveUnboxed v)
  | toBoolean v => return .truth (← HeapM.ask (·.toBoolean v))
  | toNumber v => return .value (← ScriptCore.toNumber v)
  | toDouble v => return .double (← ScriptCore.toDouble v)
  | toSmallInteger v => return .integer (← ScriptCore.toSmallInteger v).toInt
  | toInt64 v => return .integer (← HeapM.ask fun _ => v.toInt64)
  | toInteger v => return .value (← ScriptCore.toInteger v)
  | toInt32 v => return .integer (← ScriptCore.toInt32 v).toInt
  | toUInt32 v => return .integer (← ScriptCore.toUInt32 v).toNat
  | toUInt16 v => return .integer (← ScriptCore.toUInt16 v).toNat
  | toLength v => return .integer (← ScriptCore.toLength v)
  | toString v => return .value (.string (← toStringRef v))
  | checkCoercible v => do
    HeapM.ask fun _ => ScriptCore.checkCoercible v
    return .done
  | isCallable v => return .truth (← HeapM.ask (·.isCallable v))
  | typeName v => return .value (.string (.builtin (← HeapM.ask (·.typeName v))))
  | sameValue x y => return .truth (← HeapM.ask (·.sameValue x y))
  | relate x y leftFirst => return .relation (← ScriptCore.relate x y leftFirst)
  | operator op x y => return .value (← op.apply x y)

theorem run_settled (c : Call) : c.run.Settled 5 Answer.strings := by
  have hnothing : ∀ {β : Type} {k : Nat} {a : HeapM β} {g : β → Answer}, k ≤ 5 → a.Settled k nothing →
      (a >>= fun x => pure (g x)).Settled 5 Answer.strings :=
    fun hk ha => (ha.mono hk).map fun _ => List.nil_subset _
  have hvalue : ∀ {k : Nat} {a : HeapM Value}, k ≤ 5 → a.Settled k Value.strings →
      (a >>= fun v => pure (Answer.value v)).Settled 5 Answer.strings :=
    fun hk ha => (ha.mono hk).map fun v => List.Subset.refl v.strings
  have hask : ∀ {β : Type} (question : Heap → Except Error β), (ask question).Settled 0 nothing :=
    fun question => .ask question _
  cases c with
  | toPrimitive v hint => exact hvalue (by omega) (toPrimitive_settled v hint)
  | toPrimitiveUnboxed v => exact hvalue (by omega) (toPrimitiveUnboxed_settled v)
  | toNumber v => exact hnothing (by omega) (toNumber_settled v)
  | toDouble v => exact hnothing (by omega) (toDouble_settled v)
  | toSmallInteger v => exact hnothing (by omega) (toSmallInteger_settled v)
  | toInteger v => exact hnothing (by omega) (toInteger_settled v)
  | toInt32 v => exact hnothing (by omega) (toInt32_settled v)
  | toUInt32 v => exact hnothing (by omega) (toUInt32_settled v)
  | toUInt16 v => exact hnothing (by omega) (toUInt16_settled v)
  | toLength v => exact hnothing (by omega) (toLength_settled v)
  | toString v =>
    refine (((toStringRef_settled v).handing fun s => ?_).map fun s => List.Subset.refl [s]).mono (by omega)
    unfold madeFor
    split <;> simp
  | relate x y leftFirst => exact hnothing (by omega) (relate_settled x y leftFirst)
  | operator op x y => exact hvalue (by omega) (op.apply_settled x y)
  | toBoolean | toInt64 | checkCoercible | isCallable | typeName | sameValue =>
    exact hnothing (by omega) (hask _)

/-- Every call, with whatever operands, leaves a sound heap as it was but for strings that nobody holds:
retains and releases balance, held strings and objects are untouched and the log is only extended,
whether the call succeeds or fails. -/
theorem run_frame (c : Call) (h : Heap) (hs : h.Sound) : Frame h (c.run.runOn h).2 :=
  (c.run_settled h).frame hs

/-- A heap with a retained string and an object that answers with it. -/
def answering : Heap :=
  let (s, h) := (Heap.new {}).allocate (Text.ofString "1")
  ((h.retain (.string s)).addObject { payload := .object, valueOf? := some (.answer (.string s)) }).2

theorem sound_answering : answering.Sound :=
  sound_invariant.congr (sound_invariant.retain ((sound_new {}).allocate _) _) rfl rfl

theorem run_frame_answering : answering.Sound ∧
    Frame answering ((operator .add (.object ⟨0⟩) (.infinity .positive)).run.runOn answering).2 :=
  ⟨sound_answering, run_frame _ _ sound_answering⟩

/-- After a call each slot is empty, or as it was, or the one that the call answers with, which nobody
holds yet. So a call that fails or answers with no string leaves none behind. -/
theorem run_leftover (c : Call) (h : Heap) (slot : UInt32) :
    (c.run.runOn h).2.slot? slot = none ∨ (c.run.runOn h).2.slot? slot = h.slot? slot ∨
      ∃ answer text, (c.run.runOn h).1 = .ok answer ∧ answer.string? = some (.heap slot) ∧
        (c.run.runOn h).2.slot? slot = some ⟨text, 0⟩ := by
  have hleft := (c.run_settled h).leftover slot
  cases hslot : (c.run.runOn h).2.slot? slot with
  | none => exact .inl rfl
  | some entry =>
    rcases hleft entry hslot with hold | ⟨hmem, hzero⟩
    · exact .inr (.inl hold.symm)
    · cases hrun : (c.run.runOn h).1 with
      | error e => simp [hrun, handed] at hmem
      | ok answer =>
        rw [hrun] at hmem
        exact .inr (.inr ⟨answer, entry.text, rfl, Option.mem_toList.mp hmem, by rw [← hzero]⟩)

end Call
end ScriptCore
