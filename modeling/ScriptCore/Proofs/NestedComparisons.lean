import ScriptCore.Proofs.Symmetry

/-! How far loose equality nests.

Each comparison that loose equality makes inside another has less to convert (`exists_comparison`), whatever the
conversion has answered: a wrapper or a method may answer with a truth value or a string, which is converted
once more, but never with an object. So three comparisons inside the first are enough for any operands.

That the bound is not met is seen from the outcome. No question and no conversion fails in the way in which
comparisons that nest too far do (`WithinBound`, `HeapM.Bounded`), so an outcome that differs from that failure
is the outcome of comparisons that came to an end. -/
namespace ScriptCore

open Heap HeapM

variable {α β : Type} {h : Heap} {x y : Value}

/-! ### Outcomes within the bound -/

/-- The outcome is not that comparisons nest too far. -/
def WithinBound (outcome : Except Error α) : Prop := outcome ≠ .error .wrapperCycle

namespace WithinBound

theorem ok (x : α) : WithinBound (.ok x) := by
  intro heq
  cases heq

theorem error {e : Error} (he : e ≠ .wrapperCycle) : WithinBound (.error e : Except Error α) :=
  fun heq => he (Except.error.inj heq)

theorem of_error {e : Error} (he : WithinBound (.error e : Except Error α)) :
    WithinBound (.error e : Except Error β) :=
  fun heq => he (congrArg Except.error (Except.error.inj heq))

theorem bind {a : Except Error α} {f : α → Except Error β} (ha : WithinBound a)
    (hf : ∀ x, WithinBound (f x)) : WithinBound (a >>= f) := by
  cases a with
  | error e => exact ha.of_error
  | ok x => exact hf x

theorem map {a : Except Error α} (ha : WithinBound a) (f : α → β) :
    WithinBound (a >>= fun x => pure (f x)) := ha.bind fun x => ok (f x)

end WithinBound

/-! ### Questions -/

namespace Heap

theorem within_text (s : StringRef) : WithinBound (h.text s) := by
  cases s with
  | builtin b => exact .ok _
  | heap slot =>
    simp only [text]
    split
    · exact .ok _
    · exact .error (by simp)

theorem within_object (o : ObjectRef) : WithinBound (h.object o) := by
  unfold object
  split
  · exact .ok _
  · exact .error (by simp)

theorem within_objectClass (o : ObjectRef) : WithinBound (h.objectClass o) := (within_object o).map _

theorem within_searchChain (question : Object → Option α) (links : Nat) (o : ObjectRef) :
    WithinBound (h.searchChain question links o) := by
  induction links generalizing o with
  | zero =>
    unfold searchChain
    refine (within_object o).bind fun object => ?_
    cases question object with
    | some answer => exact .ok _
    | none => exact .error (by simp)
  | succ links ih =>
    unfold searchChain
    refine (within_object o).bind fun object => ?_
    cases question object with
    | some answer => exact .ok _
    | none =>
      cases object.prototype? with
      | some p => exact ih p
      | none => exact .ok _

theorem within_elementText (v : Value) : WithinBound (h.elementText v) := by
  cases v with
  | string s => exact within_text s
  | infinity s => cases s <;> exact .ok _
  | _ => exact .ok _

theorem within_joinedFrom (elements : List Value) (i : Nat) (out : Text) :
    WithinBound (h.joinedFrom i out elements) := by
  induction elements generalizing i out with
  | nil => exact .ok out
  | cons v rest ih => exact (within_elementText v).bind fun piece => ih _ _

theorem within_primitiveToNumber (v : Value) : WithinBound (h.primitiveToNumber v) := by
  cases v with
  | string s => exact (within_text s).map _
  | object _ | environment _ | function _ => exact .error (by simp)
  | _ => exact .ok _

theorem within_sameValue (x y : Value) : WithinBound (h.sameValue x y) := by
  unfold sameValue
  split
  · exact .ok _
  split
  · exact .ok _
  · exact .ok _
  · exact .ok _
  · exact (within_text _).bind fun t => (within_text _).map _
  · refine (within_objectClass _).bind fun c => (within_objectClass _).bind fun d => ?_
    split <;> exact .ok _
  · exact (within_objectClass _).map _
  · exact (within_objectClass _).map _
  · exact .ok _

theorem within_strictEquals (x y : Value) : WithinBound (h.strictEquals x y) := by
  unfold strictEquals
  split <;> first | exact .ok _ | exact within_sameValue _ _

end Heap

/-! ### Conversions -/

/-- From every heap the computation ends within the bound. -/
def HeapM.Bounded (a : HeapM α) : Prop := ∀ h, WithinBound (a.runOn h).1

namespace HeapM.Bounded

theorem pure (x : α) : (Pure.pure x : HeapM α).Bounded := fun _ => .ok x

theorem ask {question : Heap → Except Error α} (hq : ∀ h, WithinBound (question h)) :
    (HeapM.ask question).Bounded := hq

theorem bind {a : HeapM α} {f : α → HeapM β} (ha : a.Bounded) (hf : ∀ x, (f x).Bounded) :
    (a >>= f).Bounded := by
  intro h
  have hfirst := ha h
  rw [runOn_bind]
  cases hrun : a.runOn h with
  | mk outcome h' =>
    rw [hrun] at hfirst
    cases outcome with
    | error e => exact hfirst.of_error
    | ok x => exact hf x h'

theorem map {a : HeapM α} (ha : a.Bounded) (f : α → β) : (a >>= fun x => Pure.pure (f x)).Bounded :=
  ha.bind fun x => pure (f x)

end HeapM.Bounded

theorem bounded_newString (t : Text) : (HeapM.newString t).Bounded := fun _ => .ok _

theorem bounded_dateToString (o : ObjectRef) : (dateToString o).Bounded := by
  refine (Bounded.ask fun h => within_objectClass o).bind fun payload => ?_
  cases payload with
  | date time =>
    cases htext : Calendar.timeTextBy Calendar.gregorian time with
    | some text =>
      simp only [htext]
      exact bounded_newString _
    | none =>
      simp only [htext]
      exact .pure _
  | _ => exact fun _ => .error (by simp)

theorem bounded_intrinsicValueOf (o : ObjectRef) : (intrinsicValueOf o).Bounded := by
  refine (Bounded.ask fun h => within_objectClass o).bind fun payload => ?_
  cases payload <;> exact .pure _

theorem bounded_intrinsicToString (o : ObjectRef) : (intrinsicToString o).Bounded := by
  refine (Bounded.ask fun h => within_objectClass o).bind fun payload => ?_
  cases payload with
  | date time => exact (bounded_dateToString o).map _
  | array =>
    refine (Bounded.ask fun h => ?_).bind fun text => (bounded_newString text).map _
    exact (within_object o).bind fun object => within_joinedFrom object.elements 0 Text.empty
  | object | function _ => exact (bounded_newString _).map _
  | _ => exact .pure _

theorem bounded_runHook (o : ObjectRef) (hook : Hook) : (runHook o hook).Bounded := by
  cases hook with
  | freshString text => exact (bounded_newString _).map _
  | throws message => exact fun _ => .error (by simp)
  | _ => exact .pure _

theorem bounded_callMethod (o : ObjectRef) (m : Method) : (callMethod o m).Bounded := by
  refine (Bounded.ask fun h => within_searchChain _ chainLimit o).bind fun hook? => ?_
  cases hook? with
  | some hook => exact bounded_runHook o hook
  | none =>
    cases m with
    | valueOf => exact bounded_intrinsicValueOf o
    | toString => exact bounded_intrinsicToString o

theorem bounded_defaultValue (o : ObjectRef) (hint : Hint) : (defaultValue o hint).Bounded := by
  have hnoted : (HeapM.change (·.logConversion o hint)).Bounded := fun _ => .ok ()
  refine hnoted.bind fun _ => (bounded_callMethod o _).bind fun v => ?_
  split
  · exact .pure v
  refine (bounded_callMethod o _).bind fun v => ?_
  split
  · exact .pure v
  · exact fun _ => .error (by simp)

theorem bounded_toPrimitive (v : Value) (hint : Hint) : (toPrimitive v hint).Bounded := by
  cases v with
  | object o =>
    rw [toPrimitive_object]
    refine (Bounded.ask fun h => within_objectClass o).bind fun payload => ?_
    split
    · exact (bounded_dateToString o).map _
    · exact bounded_defaultValue o hint
  | _ => exact .pure _

theorem bounded_toPrimitiveUnboxed (v : Value) : (toPrimitiveUnboxed v).Bounded := by
  cases v with
  | object o =>
    refine (Bounded.ask fun h => within_objectClass o).bind fun payload => ?_
    cases payload with
    | number n => exact .pure n
    | boolean b => exact .pure _
    | _ => exact bounded_toPrimitive _ _
  | _ => exact .pure _

/-! ### Comparisons -/

theorem within_withUnboxed (hw : h.WrapsNumbers) {o : ObjectRef} {compare : Value → HeapM Bool}
    (hcompare : ∀ p h', p.rank ≤ 1 → h'.WrapsNumbers → WithinBound ((compare p).runOn h').1) :
    WithinBound ((withUnboxed (.object o) compare).runOn h).1 := by
  have hunboxed := bounded_toPrimitiveUnboxed (.object o) h
  rw [withUnboxed, runOn_bind]
  cases hrun : (toPrimitiveUnboxed (.object o)).runOn h with
  | mk outcome h' =>
    cases outcome with
    | error e =>
      rw [hrun] at hunboxed
      exact hunboxed.of_error
    | ok p => exact hcompare p (h'.retain p) (rank_unboxed hw hrun) (wrapsNumbers_unboxed hw hrun)

theorem within_looseEqualsWithin (hw : h.WrapsNumbers) {fuel : Nat} (hfuel : x.rank + y.rank < fuel) :
    WithinBound ((looseEqualsWithin fuel x y).runOn h).1 := by
  -- The bound stays above the rank of the operands, which drops with each comparison inside another.
  induction fuel generalizing h x y with
  | zero => omega
  | succ fuel ih =>
    obtain ⟨c, hc, hnext⟩ := exists_comparison x y
    rw [hnext]
    have hlower : ∀ {h : Heap} {x' y' : Value}, h.WrapsNumbers → x'.rank + y'.rank < x.rank + y.rank →
        WithinBound ((looseEqualsWithin fuel x' y').runOn h).1 := fun hw hrank => ih hw (by omega)
    cases hc with
    | strict x' y' => exact within_strictEquals x' y'
    | same x' y' => exact within_sameValue x' y'
    | known b => exact .ok b
    | converted x' y' hrank => exact hlower hw hrank
    | read s next hrank =>
      rw [runOn_bind, runOn_ask]
      have hread : WithinBound (h.primitiveToNumber (.string s)) := within_primitiveToNumber _
      cases hn : h.primitiveToNumber (.string s) with
      | error e =>
        rw [hn] at hread
        exact hread.of_error
      | ok n => exact hlower hw (hrank n (Value.rank_of_isNumeric (isNumeric_of_primitiveToNumber hn)))
    | unboxed o next hrank => exact within_withUnboxed hw fun p g hp hg => hlower hg (hrank p hp)

/-- A new number wrapper holds a number, or there is none. -/
theorem wrapsNumbers_newNumberObject (hw : h.WrapsNumbers) (v : Value) :
    ((newNumberObject v).runOn h).2.WrapsNumbers := by
  unfold newNumberObject
  split
  · rename_i hnumber
    intro object hmem n hn
    rcases Array.mem_push.mp hmem with hold | rfl
    · exact hw object hold n hn
    · obtain rfl := ObjectClass.number.inj hn
      exact hnumber
  · exact hw

/-- Where number wrappers hold numbers, three comparisons inside the first are enough for any operands: with a
bound of four the comparisons come to an end, and no higher bound makes a difference. New number wrappers hold
numbers. -/
theorem looseEquals_nesting (h : Heap) (hw : h.WrapsNumbers) (x y : Value) :
    ((looseEqualsWithin 4 x y).runOn h).1 ≠ .error .wrapperCycle ∧
    (∀ fuel, 4 ≤ fuel → (looseEqualsWithin fuel x y).runOn h = (looseEqualsWithin 4 x y).runOn h) ∧
    (looseEquals x y).runOn h = (looseEqualsWithin 4 x y).runOn h ∧
    ∀ v, ((newNumberObject v).runOn h).2.WrapsNumbers := by
  have hstable := fun (fuel : Nat) (hfuel : 4 ≤ fuel) => looseEqualsWithin_of_four_le hw hfuel x y
  refine ⟨?_, hstable, hstable _ (Nat.le_add_left 4 _), wrapsNumbers_newNumberObject hw⟩
  obtain ⟨o, p, rfl, rfl⟩ | hrank := objects_or_rank_lt x y
  · exact within_sameValue _ _
  · exact within_looseEqualsWithin hw hrank

/-- An object that answers with a truth value. -/
def assenting : Heap := { objects := #[{ payload := .object, valueOf? := some (.answer (.boolean true)) }] }

/-- The object and the text of one are compared as a truth value and a text, as a number and a text, and as
numbers: none of the three comparisons inside the first can be left out. -/
theorem looseEquals_nesting_assenting :
    assenting.WrapsNumbers ∧
    ((looseEquals (.object ⟨0⟩) (.string (.builtin .digit1))).runOn assenting).1 = .ok true ∧
    ((looseEqualsWithin 3 (.object ⟨0⟩) (.string (.builtin .digit1))).runOn assenting).1 =
      .error .wrapperCycle := by
  have hw : assenting.WrapsNumbers := by
    intro object hmem v hv
    obtain rfl := List.mem_singleton.mp (Array.mem_toList_iff.mpr hmem)
    cases hv
  obtain ⟨-, -, hrun, -⟩ := looseEquals_nesting assenting hw (.object ⟨0⟩) (.string (.builtin .digit1))
  refine ⟨hw, ?_, by decide +kernel⟩
  rw [hrun]
  decide +kernel

end ScriptCore
