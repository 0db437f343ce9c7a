import ScriptCore.Proofs.Calls

/-! References to strings that are gone.

A reference to an empty slot is stale, and reading its text is an internal error. Sums, relational operators
and comparisons with objects read the text of a string operand after the other operand is converted. So
they fail on a stale reference as long as that conversion does not fill the slot (`fails_of_stale`). It
fills no slot but the next one (`slot?_operandText`, `slot?_toPrimitive`), and if it does, the reference
reads what the conversion put there (`stale_succeeds`).

A comparison with an object reads no text when the object is converted to the reference itself or to a
value that differs from every string by its kind. -/
namespace ScriptCore

open Heap HeapM

variable {α β : Type} {h : Heap} {slot : UInt32}

/-! ### Internal errors -/

/-- The outcome is an error, an internal one or one that is known. -/
def FailsWith (known : Error → Prop) (outcome : Except Error α) : Prop :=
  ∃ e, outcome = .error e ∧ (e.kind = .internalError ∨ known e)

/-- The errors that a computation ends with. -/
def HeapM.Raises (a : HeapM α) (h : Heap) (e : Error) : Prop := (a.runOn h).1 = .error e

section Fails
variable {known : Error → Prop} {outcome : Except Error α}

theorem FailsWith.of_internal {e : Error} (he : e.kind = .internalError) :
    FailsWith known (.error e : Except Error α) := ⟨e, rfl, .inl he⟩

theorem FailsWith.mono {more : Error → Prop} (hf : FailsWith known outcome) (hsub : ∀ e, known e → more e) :
    FailsWith more outcome := by
  obtain ⟨e, he, hknown⟩ := hf
  exact ⟨e, he, hknown.imp_right (hsub e)⟩

/-- What fails is not continued. -/
theorem FailsWith.bind {a : HeapM α} (hf : FailsWith known (a.runOn h).1) (f : α → HeapM β) :
    FailsWith known ((a >>= f).runOn h).1 := by
  obtain ⟨e, he, hknown⟩ := hf
  refine ⟨e, ?_, hknown⟩
  rw [runOn_bind]
  cases hrun : a.runOn h with
  | mk outcome h' =>
    rw [hrun] at he
    rw [show outcome = .error e from he]

end Fails

theorem Heap.kind_of_text {s : StringRef} {e : Error} (hs : h.text s = .error e) :
    e.kind = .internalError := by
  unfold Heap.text at hs
  split at hs
  · cases hs
  · split at hs
    · cases hs
    · obtain rfl := Except.error.inj hs
      rfl

theorem Heap.text_of_stale (hstale : h.slot? slot = none) :
    h.text (.heap slot) = .error (.danglingString slot) := by
  simp [text, hstale]

theorem Heap.kind_of_primitiveToNumber {v : Value} {e : Error} (hv : h.primitiveToNumber v = .error e) :
    e.kind = .internalError := by
  cases v with
  | string s =>
    unfold Heap.primitiveToNumber at hv
    cases ht : h.text s with
    | error e' =>
      simp only [ht, bind, Except.bind, Except.error.injEq] at hv
      exact hv ▸ kind_of_text ht
    | ok t => simp [ht, bind, Except.bind, pure, Except.pure] at hv
  | object _ | environment _ | function _ =>
    obtain rfl := Except.error.inj hv
    rfl
  | _ => cases hv

theorem Heap.slot?_retain_eq_none (h : Heap) (v : Value) (slot : UInt32) :
    (h.retain v).slot? slot = none ↔ h.slot? slot = none := by
  rw [slot?_retain]
  split <;> simp

/-! ### Reading a stale reference -/

theorem Heap.primitiveToNumber_of_stale (hstale : h.slot? slot = none) :
    h.primitiveToNumber (.string (.heap slot)) = .error (.danglingString slot) := by
  simp [primitiveToNumber, text_of_stale hstale, bind, Except.bind]

theorem joinStrings_stale (hstale : h.slot? slot = none) {left right : StringRef}
    (hmem : left = .heap slot ∨ right = .heap slot) (known : Error → Prop) :
    FailsWith known ((joinStrings left right).runOn h).1 := by
  simp only [joinStrings, runOn_bind, runOn_ask]
  cases hl : h.text left with
  | error e => exact .of_internal (kind_of_text hl)
  | ok l =>
    cases hr : h.text right with
    | error e => exact .of_internal (kind_of_text hr)
    | ok r => rcases hmem with rfl | rfl <;> simp [text_of_stale hstale] at hl hr

theorem comparePrimitives_stale (hstale : h.slot? slot = none) {x y : Value}
    (hmem : x = .string (.heap slot) ∨ y = .string (.heap slot)) (known : Error → Prop) :
    FailsWith known (h.comparePrimitives x y) := by
  unfold Heap.comparePrimitives
  split
  · rename_i a b
    cases ha : h.text a with
    | error e => exact .of_internal (kind_of_text ha)
    | ok l =>
      cases hb : h.text b with
      | error e => exact .of_internal (kind_of_text hb)
      | ok r =>
        rcases hmem with hmem | hmem
        · obtain rfl := Value.string.inj hmem
          cases (text_of_stale hstale).symm.trans ha
        · obtain rfl := Value.string.inj hmem
          cases (text_of_stale hstale).symm.trans hb
  · cases hx : h.primitiveToNumber x with
    | error e => exact .of_internal (kind_of_primitiveToNumber hx)
    | ok a =>
      cases hy : h.primitiveToNumber y with
      | error e => exact .of_internal (kind_of_primitiveToNumber hy)
      | ok b =>
        rcases hmem with rfl | rfl
        · cases (primitiveToNumber_of_stale hstale).symm.trans hx
        · cases (primitiveToNumber_of_stale hstale).symm.trans hy

/-! ### Converting the other operand -/

/-- An operand is converted, and if that succeeds the rest runs with the result, retained or not. -/
theorem withPrimitive_outcome (h : Heap) (v : Value) (hint : Hint) (body : Value → HeapM α) :
    (∃ e, (toPrimitive v hint).Raises h e ∧ ((withPrimitive v hint body).runOn h).1 = .error e) ∨
      ∃ p h', (toPrimitive v hint).runOn h = (.ok p, h') ∧ ∃ g, (g = h' ∨ g = h'.retain p) ∧
        ((withPrimitive v hint body).runOn h).1 = ((body p).runOn g).1 := by
  cases v with
  | object o =>
    cases hrun : (toPrimitive (.object o) hint).runOn h with
    | mk outcome h' =>
      cases outcome with
      | error e =>
        refine .inl ⟨e, by rw [Raises, hrun], ?_⟩
        simp only [withPrimitive, runOn_bind, hrun]
      | ok p =>
        refine .inr ⟨p, h', rfl, h'.retain p, .inr rfl, ?_⟩
        simp only [withPrimitive, runOn_bind, hrun]
        rfl
  | _ => exact .inr ⟨_, h, rfl, h, .inl rfl, rfl⟩

/-- What is raised by a conversion fails, and so does what fails on its result. -/
theorem withPrimitive_fails {v : Value} {hint : Hint} {body : Value → HeapM α}
    (hbody : ∀ p h', (toPrimitive v hint).runOn h = (.ok p, h') → ∀ g, g = h' ∨ g = h'.retain p →
      FailsWith ((toPrimitive v hint).Raises h) ((body p).runOn g).1) :
    FailsWith ((toPrimitive v hint).Raises h) ((withPrimitive v hint body).runOn h).1 := by
  obtain ⟨e, hraises, hfails⟩ | ⟨p, h', hrun, g, hg, houtcome⟩ := withPrimitive_outcome h v hint body
  · exact ⟨e, hfails, .inr hraises⟩
  · rw [houtcome]
    exact hbody p h' hrun g hg

/-! ### Addition -/

/-- What an operand is turned into when it is joined to a string. -/
def operandText (v : Value) : HeapM StringRef := do
  primitiveToString (← toPrimitive v .default)

theorem kind_of_primitiveToString {v : Value} {e : Error}
    (hv : ((primitiveToString v).runOn h).1 = .error e) : e.kind = .internalError := by
  cases v with
  | object _ | environment _ | function _ =>
    obtain rfl := Except.error.inj hv
    rfl
  | boolean b => cases b <;> cases hv
  | infinity sign => cases sign <;> cases hv
  | int32 n =>
    simp only [primitiveToString] at hv
    split at hv <;> cases hv
  | double d =>
    simp only [primitiveToString] at hv
    split at hv <;> cases hv
  | _ => cases hv

/-- A string is its own text, so its text is made without a look at its holders. -/
theorem slot?_primitiveToString_retain (h : Heap) (v : Value) (slot : UInt32) :
    ((primitiveToString v).runOn (h.retain v)).2.slot? slot = none ↔
      ((primitiveToString v).runOn h).2.slot? slot = none := by
  obtain ⟨named, rfl⟩ | ⟨o, rfl⟩ | hv := isCounted_cases v
  · exact slot?_retain_eq_none h _ slot
  · exact slot?_retain_eq_none h _ slot
  · rw [retain_of_not_counted h v hv]

theorem addPrimitives_stale_left {right : Value}
    (hempty : ((primitiveToString right).runOn h).2.slot? slot = none) (known : Error → Prop) :
    FailsWith known ((addPrimitives (.string (.heap slot)) right).runOn h).1 := by
  have hleft : (primitiveToString (.string (.heap slot))).runOn h = (.ok (.heap slot), h) := rfl
  simp only [addPrimitives, Value.isString, Bool.true_or, if_true, runOn_withScratch, ScratchM.runOn_bind,
    ScratchM.runOn_lift, ScratchM.runOn_trackFresh, hleft]
  cases hrun : (primitiveToString right).runOn h with
  | mk outcome h' =>
    rw [hrun] at hempty
    cases outcome with
    | error e => exact .of_internal (kind_of_primitiveToString (congrArg Prod.fst hrun))
    | ok r => exact joinStrings_stale hempty (.inl rfl) known

theorem addPrimitives_stale_right {left : Value}
    (hempty : ((primitiveToString left).runOn h).2.slot? slot = none) (known : Error → Prop) :
    FailsWith known ((addPrimitives left (.string (.heap slot))).runOn h).1 := by
  simp only [addPrimitives, Value.isString, Bool.or_true, if_true, runOn_withScratch, ScratchM.runOn_bind,
    ScratchM.runOn_lift, ScratchM.runOn_trackFresh]
  cases hrun : (primitiveToString left).runOn h with
  | mk outcome h' =>
    rw [hrun] at hempty
    cases outcome with
    | error e => exact .of_internal (kind_of_primitiveToString (congrArg Prod.fst hrun))
    | ok l => exact joinStrings_stale hempty (.inr rfl) known

theorem add_string_left (s : StringRef) (y : Value) :
    add (.string s) y = withPrimitive y .default fun right => addPrimitives (.string s) right := by
  cases y with
  | infinity sign =>
    show addInfinity sign (.string s) false = _
    rw [← addGeneric_infinity_right]
    rfl
  | _ => rfl

theorem add_string_right (x : Value) (s : StringRef) :
    add x (.string s) = withPrimitive x .default fun left => addPrimitives left (.string s) := by
  cases x with
  | infinity sign =>
    show addInfinity sign (.string s) true = _
    rw [← addGeneric_infinity_left]
    rfl
  | _ => rfl

/-- If the slot is still empty after the conversion of an operand, it is so when the operand is joined. -/
theorem slot?_primitiveToString_of_operandText {y p : Value} {h' g : Heap}
    (hempty : ((operandText y).runOn h).2.slot? slot = none)
    (hrun : (toPrimitive y .default).runOn h = (.ok p, h')) (hg : g = h' ∨ g = h'.retain p) :
    ((primitiveToString p).runOn g).2.slot? slot = none := by
  simp only [operandText, runOn_bind, hrun] at hempty
  rcases hg with rfl | rfl
  · exact hempty
  · exact (slot?_primitiveToString_retain h' p slot).mpr hempty

theorem add_stale {y : Value} (hempty : ((operandText y).runOn h).2.slot? slot = none) :
    FailsWith ((toPrimitive y .default).Raises h) ((add (.string (.heap slot)) y).runOn h).1 ∧
      FailsWith ((toPrimitive y .default).Raises h) ((add y (.string (.heap slot))).runOn h).1 := by
  rw [add_string_left, add_string_right]
  constructor
  · exact withPrimitive_fails fun p h' hrun g hg =>
      addPrimitives_stale_left (slot?_primitiveToString_of_operandText hempty hrun hg) _
  · exact withPrimitive_fails fun p h' hrun g hg =>
      addPrimitives_stale_right (slot?_primitiveToString_of_operandText hempty hrun hg) _

/-! ### Relational operators -/

def BinaryOp.isRelational : BinaryOp → Bool
  | less | greater | lessEqual | greaterEqual => true
  | _ => false

theorem relate_string_left (s : StringRef) {y : Value} (hy : y ≠ .undefined) (leftFirst : Bool) :
    relate (.string s) y leftFirst =
      withPrimitive y .number fun py => HeapM.ask (·.comparePrimitives (.string s) py) := by
  have hnumeric : (Value.string s).isNumeric = false := rfl
  have hdefined : (decide (Value.string s = .undefined) || decide (y = .undefined)) = false := by simp [hy]
  unfold relate
  simp only [hnumeric, Bool.false_and, hdefined, Bool.false_eq_true, if_false]
  cases leftFirst <;> rfl

theorem relate_string_right {x : Value} (s : StringRef) (hx : x ≠ .undefined) (leftFirst : Bool) :
    relate x (.string s) leftFirst =
      withPrimitive x .number fun px => HeapM.ask (·.comparePrimitives px (.string s)) := by
  have hnumeric : (Value.string s).isNumeric = false := rfl
  have hdefined : (decide (x = .undefined) || decide (Value.string s = .undefined)) = false := by simp [hx]
  unfold relate
  simp only [hnumeric, Bool.and_false, hdefined, Bool.false_eq_true, if_false]
  cases leftFirst <;> rfl

theorem relate_stale {y : Value} (hy : y ≠ .undefined)
    (hempty : ((toPrimitive y .number).runOn h).2.slot? slot = none) (leftFirst : Bool) :
    FailsWith ((toPrimitive y .number).Raises h) ((relate (.string (.heap slot)) y leftFirst).runOn h).1 ∧
      FailsWith ((toPrimitive y .number).Raises h)
        ((relate y (.string (.heap slot)) leftFirst).runOn h).1 := by
  have hg : ∀ {p : Value} {h' g : Heap}, (toPrimitive y .number).runOn h = (.ok p, h') →
      g = h' ∨ g = h'.retain p → g.slot? slot = none := by
    rintro p h' g hrun (rfl | rfl)
    · simpa [hrun] using hempty
    · exact (slot?_retain_eq_none h' p slot).mpr (by simpa [hrun] using hempty)
  rw [relate_string_left _ hy, relate_string_right _ hy]
  constructor
  · exact withPrimitive_fails fun p h' hrun g hcase => comparePrimitives_stale (hg hrun hcase) (.inl rfl) _
  · exact withPrimitive_fails fun p h' hrun g hcase => comparePrimitives_stale (hg hrun hcase) (.inr rfl) _

theorem relational_stale {op : BinaryOp} (hop : op.isRelational = true) {y : Value} (hy : y ≠ .undefined)
    (hempty : ((toPrimitive y .number).runOn h).2.slot? slot = none) :
    FailsWith ((toPrimitive y .number).Raises h) ((op.apply (.string (.heap slot)) y).runOn h).1 ∧
      FailsWith ((toPrimitive y .number).Raises h) ((op.apply y (.string (.heap slot))).runOn h).1 := by
  have hrelate := relate_stale hy hempty
  cases op with
  | less | greaterEqual => exact ⟨((hrelate true).1.bind _).bind _, ((hrelate true).2.bind _).bind _⟩
  | greater | lessEqual => exact ⟨((hrelate false).2.bind _).bind _, ((hrelate false).1.bind _).bind _⟩
  | _ => cases hop

/-! ### Comparisons with objects -/

/-- How the conversion of an object for a comparison ends. A wrapper may hold an object, which is retained
and converted in turn. -/
inductive Unboxes : Heap → ObjectRef → Except Error Value × Heap → Prop where
  | here {h : Heap} {o : ObjectRef} {r : Except Error Value × Heap}
      (hrun : (toPrimitiveUnboxed (.object o)).runOn h = r) (hr : ∀ p, r.1 ≠ .ok (.object p)) : Unboxes h o r
  | inside {h h' : Heap} {o p : ObjectRef} {r : Except Error Value × Heap}
      (hrun : (toPrimitiveUnboxed (.object o)).runOn h = (.ok (.object p), h'))
      (hr : Unboxes (h'.retain (.object p)) p r) : Unboxes h o r

/-- The values that a string is compared with by its text: numbers, truth values and other strings. -/
def Value.meetsText (slot : UInt32) : Value → Bool
  | string s => s ≠ .heap slot
  | boolean _ => true
  | v => v.isNumeric

theorem looseEqualsWithin_number_stale (hstale : h.slot? slot = none) (fuel : Nat) {n : Value}
    (hn : n.isNumeric = true) (known : Error → Prop) :
    FailsWith known ((looseEqualsWithin fuel (.string (.heap slot)) n).runOn h).1 ∧
      FailsWith known ((looseEqualsWithin fuel n (.string (.heap slot))).runOn h).1 := by
  cases fuel with
  | zero => exact ⟨.of_internal rfl, .of_internal rfl⟩
  | succ fuel =>
    have hread : ∀ f : Value → HeapM Bool,
        FailsWith known ((HeapM.ask (·.primitiveToNumber (.string (.heap slot))) >>= f).runOn h).1 := by
      intro f
      simp only [runOn_bind, runOn_ask, primitiveToNumber_of_stale hstale]
      exact .of_internal rfl
    cases n with
    | int32 _ | double _ | nan | infinity _ => exact ⟨hread _, hread _⟩
    | _ => cases hn

theorem sameValue_stale (hstale : h.slot? slot = none) {s : StringRef} (hs : s ≠ .heap slot)
    (known : Error → Prop) :
    FailsWith known (h.sameValue (.string (.heap slot)) (.string s)) ∧
      FailsWith known (h.sameValue (.string s) (.string (.heap slot))) := by
  have hleft : Value.string (.heap slot) ≠ .string s := fun heq => hs (Value.string.inj heq).symm
  simp only [sameValue, if_neg hleft, if_neg hleft.symm, text_of_stale hstale]
  constructor
  · exact .of_internal rfl
  · cases ht : h.text s with
    | error e => exact .of_internal (kind_of_text ht)
    | ok t => exact .of_internal rfl

theorem looseEqualsWithin_stale_of_meetsText (hstale : h.slot? slot = none) (fuel : Nat) {p : Value}
    (hp : p.meetsText slot = true) (known : Error → Prop) :
    FailsWith known ((looseEqualsWithin fuel (.string (.heap slot)) p).runOn h).1 ∧
      FailsWith known ((looseEqualsWithin fuel p (.string (.heap slot))).runOn h).1 := by
  cases p with
  | int32 _ | double _ | nan | infinity _ => exact looseEqualsWithin_number_stale hstale fuel hp known
  | boolean b =>
    cases fuel with
    | zero => exact ⟨.of_internal rfl, .of_internal rfl⟩
    | succ fuel => exact looseEqualsWithin_number_stale (n := boolNumber b) hstale fuel rfl known
  | string s =>
    cases fuel with
    | zero => exact ⟨.of_internal rfl, .of_internal rfl⟩
    | succ fuel => exact sameValue_stale hstale (of_decide_eq_true hp) known
  | _ => cases hp

/-- An object is taken out of a wrapper without a change of the strings. -/
theorem slot?_of_unboxed_object {o p : ObjectRef} {h' : Heap}
    (hrun : (toPrimitiveUnboxed (.object o)).runOn h = (.ok (.object p), h')) :
    h'.slot? slot = h.slot? slot := by
  have hcases : ∀ {g : Heap}, g.Answers ((toPrimitiveUnboxed (.object o)).runOn h) → h' = g := by
    intro g hg
    rw [hrun] at hg
    cases hg with
    | known v hv => rfl
  rcases toPrimitiveUnboxed_answers h o with hr | hr
  · rw [hcases hr]
  · rw [hcases hr]
    rfl

/-- Each object on the way is unboxed once; in the end the stale reference meets a value that it is compared
with by its text. -/
theorem looseEqualsWithin_stale (fuel : Nat) (o : ObjectRef) (hstale : h.slot? slot = none)
    (hmeets : ∀ p h', Unboxes h o (.ok p, h') → p.meetsText slot = true ∧ h'.slot? slot = none) :
    FailsWith (fun e => ∃ h', Unboxes h o (.error e, h'))
        ((looseEqualsWithin fuel (.string (.heap slot)) (.object o)).runOn h).1 ∧
      FailsWith (fun e => ∃ h', Unboxes h o (.error e, h'))
        ((looseEqualsWithin fuel (.object o) (.string (.heap slot))).runOn h).1 := by
  induction fuel generalizing h o with
  | zero => exact ⟨.of_internal rfl, .of_internal rfl⟩
  | succ fuel ih =>
    have hleft : looseEqualsWithin (fuel + 1) (.string (.heap slot)) (.object o) =
        withUnboxed (.object o) fun p => looseEqualsWithin fuel (.string (.heap slot)) p := rfl
    have hright : looseEqualsWithin (fuel + 1) (.object o) (.string (.heap slot)) =
        withUnboxed (.object o) fun p => looseEqualsWithin fuel p (.string (.heap slot)) := rfl
    rw [hleft, hright]
    simp only [withUnboxed, runOn_bind]
    cases hrun : (toPrimitiveUnboxed (.object o)).runOn h with
    | mk outcome h' =>
      cases outcome with
      | error e =>
        have hfails : ∃ h', Unboxes h o (.error e, h') := ⟨h', .here hrun fun _ => nofun⟩
        exact ⟨⟨e, rfl, .inr hfails⟩, ⟨e, rfl, .inr hfails⟩⟩
      | ok p =>
        by_cases hp : ∃ inner, p = .object inner
        · obtain ⟨inner, rfl⟩ := hp
          have hinner := ih (h := h'.retain (.object inner)) inner
            ((slot?_retain_eq_none h' _ slot).mpr ((slot?_of_unboxed_object hrun).trans hstale))
            fun q g hq => hmeets q g (.inside hrun hq)
          have hmore : ∀ e, (∃ g, Unboxes (h'.retain (.object inner)) inner (.error e, g)) →
              ∃ g, Unboxes h o (.error e, g) := fun e ⟨g, hg⟩ => ⟨g, .inside hrun hg⟩
          exact ⟨hinner.1.mono hmore, hinner.2.mono hmore⟩
        · obtain ⟨hmeet, hempty⟩ := hmeets p h' (.here hrun fun inner heq => hp ⟨inner, Except.ok.inj heq⟩)
          have hempty' := (slot?_retain_eq_none h' p slot).mpr hempty
          exact looseEqualsWithin_stale_of_meetsText hempty' fuel hmeet _

/-! ### Which slot a conversion fills -/

theorem slot?_allocate_of_ne {other : UInt32} (hne : other ≠ h.nextSlot) (t : Text) :
    (h.allocate t).2.slot? other = h.slot? other := by
  by_cases hn : h.HasNext
  · rw [slot?_allocate_of_hasNext h t hn, if_neg hne]
  · exact slot?_allocate_of_not_hasNext h t hn other

theorem Heap.Answers.slot?_eq {r : Except Error Value × Heap} (hr : h.Answers r) (hne : slot ≠ h.nextSlot) :
    r.2.slot? slot = h.slot? slot := by
  cases hr with
  | fails e => rfl
  | known v hv => rfl
  | fresh t => exact slot?_allocate_of_ne hne t

/-- The conversion of an operand touches no slot but the next one. -/
theorem slot?_toPrimitive (h : Heap) (v : Value) (hint : Hint) (hne : slot ≠ h.nextSlot) :
    ((toPrimitive v hint).runOn h).2.slot? slot = h.slot? slot := by
  cases v with
  | object o =>
    rcases toPrimitive_answers h o hint with hr | hr
    · exact hr.slot?_eq hne
    · exact hr.slot?_eq (h := h.logConversion o hint) hne
  | _ => rfl

theorem Heap.Answers.nextSlot_eq {v : Value} {h' : Heap} (hr : h.Answers (.ok v, h'))
    (hv : v.isString = false) : h'.nextSlot = h.nextSlot := by
  cases hr with
  | known v hknown => rfl
  | fresh t => cases hv

/-- The text of a primitive value is a known string or a new one. -/
theorem heap_primitiveToString (h : Heap) (v : Value) :
    ((primitiveToString v).runOn h).2 = h ∨ ∃ t, ((primitiveToString v).runOn h).2 = (h.allocate t).2 := by
  cases v with
  | boolean b => cases b <;> exact .inl rfl
  | infinity sign => cases sign <;> exact .inl rfl
  | int32 n =>
    simp only [primitiveToString]
    split
    · exact .inl rfl
    · exact .inr ⟨_, rfl⟩
  | double d =>
    simp only [primitiveToString]
    split
    · exact .inl rfl
    · exact .inr ⟨_, rfl⟩
  | _ => exact .inl rfl

theorem slot?_primitiveToString (h : Heap) (v : Value) (hne : slot ≠ h.nextSlot) :
    ((primitiveToString v).runOn h).2.slot? slot = h.slot? slot := by
  obtain heq | ⟨t, heq⟩ := heap_primitiveToString h v
  · rw [heq]
  · rw [heq, slot?_allocate_of_ne hne]

/-- The text of an operand takes one slot at most: a new string that an object answers with is its own
text. -/
theorem slot?_operandText (h : Heap) (v : Value) (hne : slot ≠ h.nextSlot) :
    ((operandText v).runOn h).2.slot? slot = h.slot? slot := by
  have hprimitive := slot?_toPrimitive h v .default hne
  simp only [operandText, runOn_bind]
  cases hrun : (toPrimitive v .default).runOn h with
  | mk outcome h' =>
    rw [hrun] at hprimitive
    cases outcome with
    | error e => exact hprimitive
    | ok p =>
      by_cases hp : p.isString = true
      · obtain ⟨s, rfl⟩ : ∃ s, p = .string s := by cases p <;> simp_all [Value.isString]
        exact hprimitive
      · have hp : p.isString = false := by simpa using hp
        have hnext : h'.nextSlot = h.nextSlot := by
          cases v with
          | object o =>
            rcases toPrimitive_answers h o .default with hr | hr
            · exact (hrun ▸ hr).nextSlot_eq hp
            · exact (hrun ▸ hr).nextSlot_eq (h := h.logConversion o .default) hp
          | _ =>
            obtain rfl := (Prod.mk.inj hrun).2
            rfl
        exact (slot?_primitiveToString h' p (hnext ▸ hne)).trans hprimitive

/-! ### Operators on stale references -/

/-- A stale reference is no operand of a sum or of a relational operator, and equals no object, as long as
its slot is empty when the other operand is converted: the operator fails, with an internal error or with
the error of that conversion. The conversion of an object for a comparison must moreover end with a value
that the text of a string is compared with. -/
theorem fails_of_stale (h : Heap) (slot : UInt32) (hstale : h.slot? slot = none) :
    (∀ y, ((operandText y).runOn h).2.slot? slot = none →
      FailsWith ((toPrimitive y .default).Raises h) ((add (.string (.heap slot)) y).runOn h).1 ∧
        FailsWith ((toPrimitive y .default).Raises h) ((add y (.string (.heap slot))).runOn h).1) ∧
    (∀ op : BinaryOp, op.isRelational = true → ∀ y, y ≠ .undefined →
      ((toPrimitive y .number).runOn h).2.slot? slot = none →
      FailsWith ((toPrimitive y .number).Raises h) ((op.apply (.string (.heap slot)) y).runOn h).1 ∧
        FailsWith ((toPrimitive y .number).Raises h) ((op.apply y (.string (.heap slot))).runOn h).1) ∧
    (∀ o, (∀ p h', Unboxes h o (.ok p, h') → p.meetsText slot = true ∧ h'.slot? slot = none) →
      FailsWith (fun e => ∃ h', Unboxes h o (.error e, h'))
          ((looseEquals (.string (.heap slot)) (.object o)).runOn h).1 ∧
        FailsWith (fun e => ∃ h', Unboxes h o (.error e, h'))
          ((looseEquals (.object o) (.string (.heap slot))).runOn h).1) :=
  ⟨fun _ hempty => add_stale hempty, fun _ hop _ hy hempty => relational_stale hop hy hempty,
    fun o hmeets => looseEqualsWithin_stale (h.objects.size + 4) o hstale hmeets⟩

/-- A heap with two empty slots, of which `1` is the next to be used, and with three objects: one whose text
is a new string, one that answers with `null` and one that answers with the reference to slot `1`. -/
def vacated : Heap :=
  let (s, h) := (Heap.new {}).allocate (Text.ofString "a")
  let (t, h) := h.allocate (Text.ofString "b")
  let h := (h.reclaim s).reclaim t
  let h := (h.addObject { payload := .object }).2
  let h := (h.addObject { payload := .object, valueOf? := some (.answer .null) }).2
  (h.addObject { payload := .object, valueOf? := some (.answer (.string t)) }).2

/-- The number and the object below are converted to new strings, which go to slot `1`, not to slot `0`. -/
theorem fails_of_stale_vacated :
    vacated.slot? 0 = none ∧
      FailsWith ((toPrimitive (.int32 5) .default).Raises vacated)
        ((add (.string (.heap 0)) (.int32 5)).runOn vacated).1 ∧
      FailsWith ((toPrimitive (.object ⟨0⟩) .number).Raises vacated)
        ((BinaryOp.apply .less (.string (.heap 0)) (.object ⟨0⟩)).runOn vacated).1 ∧
      FailsWith (fun e => ∃ h', Unboxes vacated ⟨0⟩ (.error e, h'))
        ((looseEquals (.string (.heap 0)) (.object ⟨0⟩)).runOn vacated).1 := by
  have hstale : vacated.slot? 0 = none := by decide
  have hnext : (0 : UInt32) ≠ vacated.nextSlot := by decide
  have hfails := fails_of_stale vacated 0 hstale
  refine ⟨hstale, (hfails.1 _ ?_).1, (hfails.2.1 .less rfl _ (by decide) ?_).1, (hfails.2.2 ⟨0⟩ ?_).1⟩
  · rw [slot?_operandText vacated _ hnext, hstale]
  · rw [slot?_toPrimitive vacated _ _ hnext, hstale]
  · have hrun : ((toPrimitiveUnboxed (.object ⟨0⟩)).runOn vacated).1 = .ok (.string (.heap 1)) ∧
        ((toPrimitiveUnboxed (.object ⟨0⟩)).runOn vacated).2.slot? 0 = none := by decide +kernel
    rintro p h' (⟨hhere, _⟩ | ⟨hinside, _⟩)
    · rw [hhere] at hrun
      obtain rfl := Except.ok.inj hrun.1
      exact ⟨rfl, hrun.2⟩
    · rw [hinside] at hrun
      cases hrun.1

/-- Slot `1` is empty, yet a sum and a relational operator read from it what the conversion of the other
operand has just put there. Compared with `null` the reference is not read at all, and it equals itself. -/
theorem stale_succeeds :
    vacated.slot? 1 = none ∧
      ((add (.string (.heap 1)) (.int32 5)).runOn vacated).1 = .ok (.string (.heap 0)) ∧
      ((add (.string (.heap 1)) (.int32 5)).runOn vacated).2.text (.heap 0) = .ok (Text.ofString "55") ∧
      ((lessThan (.string (.heap 1)) (.object ⟨0⟩)).runOn vacated).1 = .ok false ∧
      ((looseEquals (.string (.heap 1)) (.object ⟨1⟩)).runOn vacated).1 = .ok false ∧
      ((looseEquals (.string (.heap 1)) (.object ⟨2⟩)).runOn vacated).1 = .ok true := by
  decide +kernel

end ScriptCore
