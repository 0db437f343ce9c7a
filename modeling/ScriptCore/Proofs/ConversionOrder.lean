import ScriptCore.Proofs.Addition
import ScriptCore.Proofs.Safety
import ScriptCore.Proofs.StaleStrings

/-! Operands are converted from left to right, each at most once.

The heap notes each conversion of an object that runs its methods. What the arithmetic and the relational
operators add to these notes is known before they run (`BinaryOp.conversions`): the note of the left operand,
and the note of the right one if the left one is converted. So it does not matter that two of the relational
operators exchange their operands, nor which shortcut an addition takes (`BinaryOp.apply_log`).

Nothing else that an operator does adds to the notes, and no conversion changes the class of an object, so
that both notes can be read off the heap at the start. This holds of any heap, well-formed or not. -/
namespace ScriptCore

open Heap HeapM

variable {α β : Type} {h : Heap}

/-! ### What conversions add to the log -/

/-- The note of a conversion of a value, if it is an object of one of the given classes. -/
def Heap.note (h : Heap) (noted : ObjectClass → Bool) (hint : Hint) : Value → List (ObjectRef × Hint)
  | .object o =>
    match h.objectClass o with
    | .ok payload => if noted payload then [(o, hint)] else []
    | .error _ => []
  | _ => []

theorem Heap.note_object {o : ObjectRef} {payload : ObjectClass} (ho : h.objectClass o = .ok payload)
    (noted : ObjectClass → Bool) (hint : Hint) :
    h.note noted hint (.object o) = if noted payload then [(o, hint)] else [] := by
  rw [note, ho]

theorem Heap.note_of_not_object {v : Value} (hv : v.isObject = false) (noted : ObjectClass → Bool)
    (hint : Hint) : h.note noted hint v = [] := by
  cases v with
  | object o => cases hv
  | _ => rfl

theorem Heap.note_congr {h' : Heap} (ho : h'.objects = h.objects) (noted : ObjectClass → Bool) (hint : Hint)
    (v : Value) : h'.note noted hint v = h.note noted hint v := by
  cases v with
  | object o => simp only [note, objectClass, object, ho]
  | _ => rfl

/-- A computation adds to the log what is given, and leaves the objects alone. -/
structure HeapM.Logs (a : HeapM α) (h : Heap) (notes : List (ObjectRef × Hint)) : Prop where
  log : (a.runOn h).2.log.toList = h.log.toList ++ notes
  objects : (a.runOn h).2.objects = h.objects

namespace HeapM.Logs

variable {notes more : List (ObjectRef × Hint)}

theorem of_besideStrings {a : HeapM α} (ha : (a.runOn h).2.besideStrings = h.besideStrings) : a.Logs h [] where
  log := by
    have hlog : (a.runOn h).2.log = h.log := (congrArg Heap.log ha :)
    rw [hlog, List.append_nil]
  objects := (congrArg Heap.objects ha :)

theorem pure (x : α) : (Pure.pure x : HeapM α).Logs h [] := of_besideStrings rfl

theorem throw (e : Error) : (MonadExcept.throw e : HeapM α).Logs h [] := of_besideStrings rfl

theorem ask (question : Heap → Except Error α) : (HeapM.ask question).Logs h [] := of_besideStrings rfl

theorem congr {a b : HeapM α} (hrun : b.runOn h = a.runOn h) (ha : a.Logs h notes) : b.Logs h notes where
  log := by rw [hrun, ha.log]
  objects := by rw [hrun, ha.objects]

theorem ask_ok {question : Heap → Except Error α} {f : α → HeapM β} {x : α} (hq : question h = .ok x)
    (hf : (f x).Logs h notes) : (HeapM.ask question >>= f).Logs h notes :=
  hf.congr (by rw [runOn_bind, runOn_ask, hq])

theorem ask_error {question : Heap → Except Error α} {f : α → HeapM β} {e : Error}
    (hq : question h = .error e) : (HeapM.ask question >>= f).Logs h [] :=
  (throw e).congr (by rw [runOn_bind, runOn_ask, hq, runOn_throw])

/-- The second computation runs if the first one succeeds. -/
theorem bind {a : HeapM α} {f : α → HeapM β} {more : α → List (ObjectRef × Hint)} (ha : a.Logs h notes)
    (hf : ∀ x h', a.runOn h = (.ok x, h') → h'.objects = h.objects → (f x).Logs h' (more x)) :
    (a >>= f).Logs h (notes ++ (a.runOn h).1.toOption.elim [] more) := by
  obtain ⟨hlog, hobjects⟩ := ha
  rcases hrun : a.runOn h with ⟨e | x, h'⟩
  · simp only [hrun] at hlog hobjects
    constructor
    · simp only [runOn_bind, hrun, hlog, Except.toOption, Option.elim_none, List.append_nil]
    · simp only [runOn_bind, hrun, hobjects]
  · simp only [hrun] at hlog hobjects
    obtain ⟨hlog', hobjects'⟩ := hf x h' hrun hobjects
    constructor
    · simp only [runOn_bind, hrun, hlog', hlog, Except.toOption, Option.elim_some, List.append_assoc]
    · simp only [runOn_bind, hrun, hobjects', hobjects]

/-- What follows a computation adds nothing. -/
theorem bind_nothing {a : HeapM α} {f : α → HeapM β} (ha : a.Logs h notes)
    (hf : ∀ x h', (f x).Logs h' []) : (a >>= f).Logs h notes := by
  have hbind : (a >>= f).Logs h (notes ++ (a.runOn h).1.toOption.elim [] fun _ => []) :=
    ha.bind fun x h' _ _ => hf x h'
  rcases hrun : (a.runOn h).1 with e | x <;>
    simpa only [hrun, Except.toOption, Option.elim_none, Option.elim_some, List.append_nil] using hbind

/-- A bracket around a primitive value changes neither. -/
theorem transient {p : Value} (hp : p.isPrimitive = true) {a : HeapM α} (ha : a.Logs (h.retain p) notes) :
    (withTransient p a).Logs h notes where
  log := by
    have hlog : ((a.runOn (h.retain p)).2.release p).log.toList = h.log.toList ++ notes := by
      rw [log_release, ha.log, log_retain]
    exact hlog
  objects := by
    have hobjects : ((a.runOn (h.retain p)).2.release p).objects = h.objects := by
      rw [objects_release_of_isPrimitive hp, ha.objects, objects_retain_of_isPrimitive hp]
    exact hobjects

end HeapM.Logs

/-! ### Conversions -/

theorem defaultValue_logs (o : ObjectRef) (hint : Hint) : (defaultValue o hint).Logs h [(o, hint)] := by
  have hanswers := (defaultValue_answers h o hint).besideStrings_eq
  constructor
  · have hlog : ((defaultValue o hint).runOn h).2.log = h.log.push (o, hint) := congrArg Heap.log hanswers
    rw [hlog, Array.toList_push]
  · exact (congrArg Heap.objects hanswers :)

/-- Dates are converted without their methods. -/
theorem toPrimitive_logs (v : Value) (hint : Hint) :
    (toPrimitive v hint).Logs h (h.note (!·.isDate) hint v) := by
  cases v with
  | object o =>
    rw [toPrimitive_object]
    cases hclass : h.objectClass o with
    | error e =>
      rw [note, hclass]
      exact .ask_error hclass
    | ok payload =>
      rw [note_object hclass]
      refine .ask_ok hclass ?_
      cases hdate : payload.isDate with
      | true => exact .of_besideStrings (dateToString_answers h o).besideStrings_eq
      | false => exact defaultValue_logs o hint
  | _ => exact .pure _

/-- The rest runs, with the objects as they were, if the operand is converted. -/
theorem withPrimitive_logs (v : Value) (hint : Hint) {body : Value → HeapM α}
    {more : List (ObjectRef × Hint)} (hbody : ∀ p g, g.objects = h.objects → (body p).Logs g more) :
    (withPrimitive v hint body).Logs h (h.note (!·.isDate) hint v ++
      if ((toPrimitive v hint).runOn h).1.toOption.isSome then more else []) := by
  cases v with
  | object o =>
    have hlogs : (withPrimitive (.object o) hint body).Logs h (h.note (!·.isDate) hint (.object o) ++
        ((toPrimitive (.object o) hint).runOn h).1.toOption.elim [] fun _ => more) := by
      refine (toPrimitive_logs (.object o) hint).bind fun p h' hrun hobjects => ?_
      have hp := isPrimitive_of_toPrimitive hrun
      exact .transient hp (hbody p _ ((objects_retain_of_isPrimitive hp h').trans hobjects))
    rcases hrun : ((toPrimitive (.object o) hint).runOn h).1 with e | p <;> rwa [hrun] at hlogs
  | _ => exact hbody _ h rfl

theorem toNumber_logs (v : Value) : (toNumber v).Logs h (h.note (!·.isDate) .number v) := by
  have hlogs : (toNumber v).Logs h (h.note (!·.isDate) .number v ++
      if ((toPrimitive v .number).runOn h).1.toOption.isSome then [] else []) :=
    withPrimitive_logs v .number fun p g _ => .ask _
  rwa [ite_self, List.append_nil] at hlogs

def ObjectClass.isPlain : ObjectClass → Bool
  | object | array => true
  | _ => false

/-- Wrappers are resolved to what they hold and functions to nothing. -/
theorem resolve_logs (v : Value) : (resolve v).Logs h (h.note (·.isPlain) .number v) := by
  cases v with
  | object o =>
    rw [resolve_object]
    cases hclass : h.objectClass o with
    | error e =>
      rw [note, hclass]
      exact .ask_error hclass
    | ok payload =>
      have hnumber := toNumber_logs (h := h) (.object o)
      rw [note_object hclass] at hnumber ⊢
      refine .ask_ok hclass ?_
      -- Dates are converted too, but without a note, so that they need not be told apart here.
      cases payload with
      | object | array | date time => exact hnumber.bind_nothing fun _ _ => .pure _
      | string s => exact .bind_nothing (.ask _) fun _ _ => .pure _
      | _ => exact .pure _
  | environment address => exact .throw _
  | function entry => exact .pure _
  | _ => exact .bind_nothing (.ask _) fun _ _ => .pure _

/-! ### Operators -/

theorem besideStrings_primitiveToString (h : Heap) (v : Value) :
    ((primitiveToString v).runOn h).2.besideStrings = h.besideStrings := by
  obtain heq | ⟨t, heq⟩ := heap_primitiveToString h v
  · rw [heq]
  · rw [heq, besideStrings_allocate]

theorem besideStrings_joinStrings (h : Heap) (left right : StringRef) :
    ((joinStrings left right).runOn h).2.besideStrings = h.besideStrings := by
  simp only [joinStrings, runOn_bind, runOn_ask]
  split
  · rename_i text h' hjoined
    obtain rfl : h = h' := congrArg Prod.snd hjoined
    exact besideStrings_allocate h text
  · rename_i e h' hjoined
    obtain rfl : h = h' := congrArg Prod.snd hjoined
    rfl

theorem besideStrings_recallAll (scratch : Scratch) (h : Heap) :
    (scratch.recallAll h).besideStrings = h.besideStrings := by
  obtain ⟨strings⟩ := scratch
  show (strings.foldl Heap.reclaim h).besideStrings = h.besideStrings
  induction strings generalizing h with
  | nil => rfl
  | cons s rest ih => exact (ih _).trans (besideStrings_reclaim h s)

theorem addPrimitives_logs (left right : Value) : (addPrimitives left right).Logs h [] := by
  unfold addPrimitives
  split
  · -- Both texts are made, joined and recalled without a look beside the strings.
    refine .of_besideStrings ?_
    simp only [runOn_withScratch, ScratchM.runOn_bind, ScratchM.runOn_lift, ScratchM.runOn_trackFresh,
      besideStrings_recallAll]
    have hleft := besideStrings_primitiveToString h left
    generalize (primitiveToString left).runOn h = outcome at hleft ⊢
    obtain ⟨e | l, h₁⟩ := outcome
    · exact hleft
    · have hright := besideStrings_primitiveToString h₁ right
      simp only
      generalize (primitiveToString right).runOn h₁ = outcome at hright ⊢
      obtain ⟨e | r, h₂⟩ := outcome
      · exact hright.trans hleft
      · exact (besideStrings_joinStrings h₂ l r).trans (hright.trans hleft)
  · exact .bind_nothing (.ask _) fun a h' => .bind_nothing (.ask _) fun b h'' => .pure _

/-- What is added when both operands are converted before anything else happens. -/
theorem withPrimitives_logs (x y : Value) (hint : Hint) {body : Value → Value → HeapM α}
    (hbody : ∀ p q g, (body p q).Logs g []) :
    (withPrimitive x hint fun p => withPrimitive y hint fun q => body p q).Logs h
      (h.note (!·.isDate) hint x ++
        if ((toPrimitive x hint).runOn h).1.toOption.isSome then h.note (!·.isDate) hint y else []) := by
  refine withPrimitive_logs x hint fun p g hg => ?_
  have hright := withPrimitive_logs (h := g) y hint fun q g' _ => hbody p q g'
  rwa [ite_self, List.append_nil, note_congr hg] at hright

theorem onNumbers_logs (compute : Value → Value → Value) (x y : Value) :
    (onNumbers compute x y).Logs h
      (h.note (·.isPlain) .number x ++
        if ((resolve x).runOn h).1.toOption.join.isSome then h.note (·.isPlain) .number y else []) := by
  have hlogs : (onNumbers compute x y).Logs h (h.note (·.isPlain) .number x ++
      ((resolve x).runOn h).1.toOption.elim [] fun a? =>
        if a?.isSome then h.note (·.isPlain) .number y else []) := by
    refine (resolve_logs x).bind fun a? h' _ hobjects => ?_
    cases a? with
    | none => exact .pure _
    | some a =>
      rw [← note_congr hobjects]
      refine (resolve_logs y).bind_nothing fun b? h'' => ?_
      cases b? <;> exact .pure _
  rcases hrun : ((resolve x).runOn h).1 with e | (_ | a) <;> rwa [hrun] at hlogs

/-! ### Left to right -/

/-- The operators that convert operands to compute with them or to order them. -/
def BinaryOp.isNumerical (op : BinaryOp) : Bool := op = .add || op.resolves || op.isRelational

/-- What an operator asks of an object: addition makes no demand. -/
def BinaryOp.hint (op : BinaryOp) : Hint := if op = .add then .default else .number

/-- The classes of objects whose methods an operator runs. -/
def BinaryOp.converts (op : BinaryOp) (payload : ObjectClass) : Bool :=
  if op.resolves then payload.isPlain else !payload.isDate

/-- Whether an operator gets beyond its left operand. -/
def BinaryOp.passes (op : BinaryOp) (x : Value) (h : Heap) : Bool :=
  if op.resolves then ((resolve x).runOn h).1.toOption.join.isSome
  else ((toPrimitive x op.hint).runOn h).1.toOption.isSome

/-- The conversions of an operator, in order: of the left operand, and of the right one if that succeeds. A
relational operator looks for `undefined` first. -/
def BinaryOp.conversions (op : BinaryOp) (x y : Value) (h : Heap) : List (ObjectRef × Hint) :=
  if op.isRelational && (x = .undefined || y = .undefined) then []
  else h.note op.converts op.hint x ++ if op.passes x h then h.note op.converts op.hint y else []

theorem BinaryOp.conversions_of_not_objects (op : BinaryOp) {x y : Value} (hx : x.isObject = false)
    (hy : y.isObject = false) : op.conversions x y h = [] := by
  rw [conversions, note_of_not_object hx, note_of_not_object hy, ite_self, List.append_nil, ite_self]

theorem add_logs (x y : Value) : (add x y).Logs h (BinaryOp.add.conversions x y h) := by
  rcases add_cases x y with hsame | ⟨-, ⟨hx, hy⟩, hnan⟩
  · rw [hsame]
    exact withPrimitives_logs x y .default fun left right g => addPrimitives_logs left right
  · rw [hnan, BinaryOp.conversions_of_not_objects _ hx hy]
    exact .pure _

/-- Numbers are ordered at once, and so is `undefined`. -/
theorem relate_cases (x y : Value) (leftFirst : Bool) :
    ((x.isNumeric = true ∧ y.isNumeric = true) ∧ ∃ r, relate x y leftFirst = pure r) ∨
    (x = .undefined ∨ y = .undefined) ∧ relate x y leftFirst = pure .incomparable ∨
    ¬ (x = .undefined ∨ y = .undefined) ∧ relate x y leftFirst =
      if leftFirst then
        withPrimitive x .number fun p =>
          withPrimitive y .number fun q => HeapM.ask (·.comparePrimitives p q)
      else
        withPrimitive y .number fun q =>
          withPrimitive x .number fun p => HeapM.ask (·.comparePrimitives p q) := by
  unfold relate
  split
  · exact .inl ⟨⟨rfl, rfl⟩, _, rfl⟩
  simp only [Bool.and_eq_true, Bool.or_eq_true, decide_eq_true_eq]
  by_cases hnumeric : x.isNumeric = true ∧ y.isNumeric = true
  · exact .inl ⟨hnumeric, _, if_pos hnumeric⟩
  rw [if_neg hnumeric]
  by_cases hundefined : x = .undefined ∨ y = .undefined
  · exact .inr (.inl ⟨hundefined, if_pos hundefined⟩)
  · exact .inr (.inr ⟨hundefined, if_neg hundefined⟩)

theorem BinaryOp.conversions_of_undefined {op : BinaryOp} (hop : op.isRelational = true) {x y : Value}
    (hundefined : x = .undefined ∨ y = .undefined) : op.conversions x y h = [] :=
  if_pos (by simpa [hop] using hundefined)

theorem BinaryOp.conversions_of_defined {op : BinaryOp} (hop : op.isRelational = true) {x y : Value}
    (hdefined : ¬ (x = .undefined ∨ y = .undefined)) :
    op.conversions x y h = h.note (!·.isDate) .number x ++
      if ((toPrimitive x .number).runOn h).1.toOption.isSome then h.note (!·.isDate) .number y else [] := by
  rw [conversions, if_neg (by simpa [hop] using hdefined)]
  cases op with
  | less | greater | lessEqual | greaterEqual => rfl
  | _ => cases hop

/-- The operand that is to be converted first is the left one of the operator, in whichever place it is. -/
theorem relate_logs {op : BinaryOp} (hop : op.isRelational = true) (x y : Value) :
    (relate x y true).Logs h (op.conversions x y h) ∧ (relate y x false).Logs h (op.conversions x y h) := by
  have hnumbers : x.isNumeric = true ∧ y.isNumeric = true → op.conversions x y h = [] := fun hnumeric =>
    op.conversions_of_not_objects (Value.isObject_of_isNumeric hnumeric.1)
      (Value.isObject_of_isNumeric hnumeric.2)
  constructor
  · obtain ⟨hnumeric, r, hr⟩ | ⟨hundefined, hr⟩ | ⟨hdefined, hr⟩ := relate_cases x y true
    · rw [hr, hnumbers hnumeric]
      exact .pure _
    · rw [hr, BinaryOp.conversions_of_undefined hop hundefined]
      exact .pure _
    · rw [hr, BinaryOp.conversions_of_defined hop hdefined]
      exact withPrimitives_logs x y .number fun p q g => .ask _
  · obtain ⟨hnumeric, r, hr⟩ | ⟨hundefined, hr⟩ | ⟨hdefined, hr⟩ := relate_cases y x false
    · rw [hr, hnumbers hnumeric.symm]
      exact .pure _
    · rw [hr, BinaryOp.conversions_of_undefined hop hundefined.symm]
      exact .pure _
    · rw [hr, BinaryOp.conversions_of_defined hop (mt Or.symm hdefined)]
      exact withPrimitives_logs x y .number fun p q g => .ask _

theorem BinaryOp.apply_logs (op : BinaryOp) (hop : op.isNumerical = true) (x y : Value) :
    (op.apply x y).Logs h (op.conversions x y h) := by
  cases op with
  | add => exact add_logs x y
  | sub | mul | div | rem => exact onNumbers_logs _ x y
  | less | greaterEqual =>
    exact ((relate_logs rfl x y).1.bind_nothing fun _ _ => .pure _).bind_nothing fun _ _ => .pure _
  | greater | lessEqual =>
    exact ((relate_logs rfl x y).2.bind_nothing fun _ _ => .pure _).bind_nothing fun _ _ => .pure _
  | _ => cases hop

theorem Heap.note_sublist (h : Heap) (noted : ObjectClass → Bool) (hint : Hint) (v : Value) :
    ((h.note noted hint v).map fun note => (Value.object note.1, note.2)).Sublist [(v, hint)] := by
  cases v with
  | object o =>
    cases hclass : h.objectClass o with
    | error e =>
      rw [note, hclass]
      exact List.nil_sublist _
    | ok payload =>
      rw [note_object hclass]
      split
      · exact .refl _
      · exact List.nil_sublist _
  | _ => exact List.nil_sublist _

theorem exists_function_of_isCallable {o : ObjectRef} (ho : h.isCallable (.object o) = .ok true) :
    ∃ f, h.objectClass o = .ok (.function f) := by
  cases hclass : h.objectClass o with
  | error e =>
    simp only [isCallable, hclass, bind, Except.bind] at ho
    cases ho
  | ok payload =>
    simp only [isCallable, hclass, bind, Except.bind] at ho
    cases payload with
    | function f => exact ⟨f, rfl⟩
    | _ => cases ho

/-- What can be called is neither noted nor resolved. -/
theorem BinaryOp.conversions_of_callable {op : BinaryOp} (hop : op.resolves = true) {x : Value}
    (hx : h.isCallable x = .ok true) (y : Value) : op.conversions x y h = [] := by
  have hnothing : h.note (·.isPlain) .number x = [] ∧ (resolve x).runOn h = (.ok none, h) := by
    cases x with
    | object o =>
      obtain ⟨f, hclass⟩ := exists_function_of_isCallable hx
      refine ⟨note_object hclass _ _, ?_⟩
      simp only [resolve, runOn_bind, runOn_ask, hclass, runOn_pure]
    | function entry => exact ⟨rfl, rfl⟩
    | _ => cases hx
  have hresolved : op.conversions x y h = h.note (·.isPlain) .number x ++
      if ((resolve x).runOn h).1.toOption.join.isSome then h.note (·.isPlain) .number y else [] := by
    cases op with
    | sub | mul | div | rem => rfl
    | _ => cases hop
  rw [hresolved, hnothing.1, hnothing.2]
  rfl

/-- The arithmetic and the relational operators add to the log the conversions of their operands, from left to
right and each at most once: none of the right operand if the left one is not converted, none at all if the
left operand of a subtraction, multiplication, division or remainder can be called, or if `undefined` is
compared. -/
theorem BinaryOp.apply_log (op : BinaryOp) (hop : op.isNumerical = true) (x y : Value) (h : Heap) :
    ((op.apply x y).runOn h).2.log.toList = h.log.toList ++ op.conversions x y h ∧
    ((op.conversions x y h).map fun note => (Value.object note.1, note.2)).Sublist
      [(x, op.hint), (y, op.hint)] ∧
    (op.passes x h = false →
      ((op.conversions x y h).map fun note => (Value.object note.1, note.2)).Sublist [(x, op.hint)]) ∧
    (op.resolves = true → h.isCallable x = .ok true → op.conversions x y h = []) ∧
    (op.isRelational = true → x = .undefined ∨ y = .undefined → op.conversions x y h = []) := by
  refine ⟨(op.apply_logs hop x y).log, ?_, fun hpasses => ?_,
    fun hresolves hx => conversions_of_callable hresolves hx y,
    fun hrelational => conversions_of_undefined hrelational⟩
  · unfold conversions
    split
    · exact List.nil_sublist _
    · rw [List.map_append]
      refine (h.note_sublist op.converts op.hint x).append ?_
      split
      · exact h.note_sublist op.converts op.hint y
      · exact List.nil_sublist _
  · unfold conversions
    rw [hpasses]
    split
    · exact List.nil_sublist _
    · simpa using h.note_sublist op.converts op.hint x

/-- Two objects that are converted to numbers. -/
def answeringPair : Heap :=
  { objects := #[{ payload := .object, valueOf? := some (.answer (.int32 1)) },
      { payload := .array, valueOf? := some (.answer (.int32 2)) }] }

/-- Their order is asked for with the operands exchanged. -/
theorem BinaryOp.apply_log_greater :
    BinaryOp.greater.isNumerical = true ∧
    ((BinaryOp.greater.apply (.object ⟨0⟩) (.object ⟨1⟩)).runOn answeringPair).2.log.toList =
      [(⟨0⟩, .number), (⟨1⟩, .number)] := by
  have hconversions : BinaryOp.greater.conversions (.object ⟨0⟩) (.object ⟨1⟩) answeringPair =
      [(⟨0⟩, .number), (⟨1⟩, .number)] := by decide +kernel
  have hlog := (BinaryOp.apply_log .greater rfl (.object ⟨0⟩) (.object ⟨1⟩) answeringPair).1
  rw [hconversions] at hlog
  exact ⟨rfl, hlog⟩

end ScriptCore
