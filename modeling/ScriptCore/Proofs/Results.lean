import ScriptCore.Proofs.Calls

/-! What operators hand to the heap.

A result that the heap counts is always a sum, and it is a new string (`Joined`): alive, held by nobody, and
none of the strings that were joined. So the brackets around the operands, which close after the string is
made, leave it alone. The other operators end with numbers and truth values. -/
namespace ScriptCore

open Heap HeapM

/-! ### Results of arithmetic on numbers -/

theorem isNumeric_of_int32Of? {n : Int} {v : Value} (hv : int32Of? n = some v) : v.isNumeric = true := by
  obtain ⟨_, hsmall⟩ := Option.ite_none_right_eq_some.mp hv
  obtain rfl := Option.some.inj hsmall
  rfl

theorem isNumeric_getD {small? : Option Value} (hsmall : ∀ v, small? = some v → v.isNumeric = true)
    (d : Double) : (small?.getD (Value.ofDouble d)).isNumeric = true := by
  cases small? with
  | none => exact Value.isNumeric_ofDouble d
  | some v => exact hsmall v rfl

theorem isNumeric_addDoubles (x y : Double) : (addDoubles x y).isNumeric = true := by
  unfold addDoubles
  simp only
  split
  · rfl
  · split
    · rfl
    · split
      · split
        · exact Value.isNumeric_ofDouble _
        · rfl
      · exact Value.isNumeric_ofDouble _

theorem isNumeric_addNumbers (a b : Value) : (addNumbers a b).isNumeric = true := by
  unfold addNumbers
  split
  · exact isNumeric_getD (fun _ => isNumeric_of_int32Of?) _
  · rfl
  · rfl
  · split <;> rfl
  · rfl
  · rfl
  · split
    · exact isNumeric_addDoubles _ _
    · rfl

theorem isNumeric_subNumbers (a b : Value) : (subNumbers a b).isNumeric = true := by
  unfold subNumbers
  split
  · exact isNumeric_getD (fun _ => isNumeric_of_int32Of?) _
  · exact Value.isNumeric_ofDouble _

theorem isNumeric_mulNumbers (a b : Value) : (mulNumbers a b).isNumeric = true := by
  unfold mulNumbers
  split
  · split
    · rename_i product hproduct
      split
      · exact Value.isNumeric_ofDouble _
      · exact isNumeric_of_int32Of? hproduct
    · exact Value.isNumeric_ofDouble _
  · exact Value.isNumeric_ofDouble _

theorem isNumeric_divideByZero (dividend : Double) : (divideByZero dividend).isNumeric = true := by
  unfold divideByZero
  split <;> rfl

theorem isNumeric_divNumbers (a b : Value) : (divNumbers a b).isNumeric = true := by
  unfold divNumbers
  split
  · exact isNumeric_divideByZero _
  · split
    · split
      · exact Value.isNumeric_ofDouble _
      · refine isNumeric_getD (fun v hv => ?_) _
        exact isNumeric_of_int32Of? (Option.ite_none_right_eq_some.mp hv).2
    · exact Value.isNumeric_ofDouble _

theorem isNumeric_remNumbers (a b : Value) : (remNumbers a b).isNumeric = true := by
  unfold remNumbers
  split
  · exact isNumeric_divideByZero _
  · split
    · simp only
      split
      · exact Value.isNumeric_ofDouble _
      · rfl
    · exact Value.isNumeric_ofDouble _

/-! ### Results that the heap counts -/

/-- If an outcome is a value that the heap counts, it is a string held by nobody, none of the given ones. -/
def Joined (apart : List StringRef) (r : Except Error Value × Heap) : Prop :=
  ∀ v, r.1 = .ok v → v.isCounted = true →
    ∃ slot, v = .string (.heap slot) ∧ .heap slot ∉ apart ∧ ∃ text, r.2.slot? slot = some ⟨text, 0⟩

variable {apart : List StringRef} {h : Heap}

theorem Joined.of_not_counted {v : Value} (hv : v.isCounted = false) : Joined apart (.ok v, h) := by
  intro w hw hcounted
  obtain rfl := Except.ok.inj hw
  simp [hv] at hcounted

theorem Joined.of_error (e : Error) : Joined apart (.error e, h) := fun _ hv => nomatch hv

theorem Joined.mono {few : List StringRef} {r : Except Error Value × Heap} (hr : Joined apart r)
    (hsub : few ⊆ apart) : Joined few r := by
  intro v hv hcounted
  obtain ⟨slot, rfl, hapart, hlive⟩ := hr v hv hcounted
  exact ⟨slot, rfl, fun hmem => hapart (hsub hmem), hlive⟩

/-- What comes first does not matter when nothing after it is counted. -/
theorem Joined.bind {β : Type} (a : HeapM β) {f : β → HeapM Value}
    (hf : ∀ x h', Joined apart ((f x).runOn h')) : Joined apart ((a >>= f).runOn h) := by
  rw [runOn_bind]
  cases a.runOn h with
  | mk outcome h' =>
    cases outcome with
    | error e => exact .of_error e
    | ok x => exact hf x h'

theorem Joined.release {outcome : Except Error Value} {v : Value} (hr : Joined apart (outcome, h))
    (hv : v.strings ⊆ apart) : Joined apart (outcome, h.release v) := by
  intro w hw hcounted
  obtain ⟨slot, rfl, hapart, text, hslot⟩ := hr w hw hcounted
  have hne : v ≠ .string (.heap slot) := fun heq => hapart (hv (Value.mem_strings.mpr heq))
  exact ⟨slot, rfl, hapart, text, by rw [slot?_release, if_neg hne, hslot]⟩

theorem Joined.reclaim {outcome : Except Error Value} {s : StringRef} (hr : Joined apart (outcome, h))
    (hs : s ∈ apart) : Joined apart (outcome, h.reclaim s) := by
  intro w hw hcounted
  obtain ⟨slot, rfl, hapart, text, hslot⟩ := hr w hw hcounted
  cases s with
  | builtin b => exact ⟨slot, rfl, hapart, text, hslot⟩
  | heap named =>
    have hne : slot ≠ named := fun heq => hapart (heq ▸ hs)
    exact ⟨slot, rfl, hapart, text, by rw [slot?_reclaim, if_neg hne, hslot]⟩

theorem Joined.recallAll {outcome : Except Error Value} {scratch : Scratch} (hr : Joined apart (outcome, h))
    (hs : scratch.strings ⊆ apart) : Joined apart (outcome, scratch.recallAll h) := by
  obtain ⟨strings⟩ := scratch
  show Joined apart (outcome, strings.foldl Heap.reclaim h)
  induction strings generalizing h with
  | nil => exact hr
  | cons s rest ih =>
    have hs := List.cons_subset.mp hs
    exact ih (hr.reclaim hs.1) hs.2

/-- The new string is not among those that are joined, since these are alive when it is made. -/
theorem joinStrings_joined (hs : h.Sound) (hr : h.Room 1) (left right : StringRef) :
    Joined [left, right] ((joinStrings left right).runOn h) := by
  have hfree := slot?_nextSlot_of_sound hs (hr.hasNext hs)
  have hdead : ∀ {s t}, h.text s = .ok t → s ≠ .heap h.nextSlot := by
    rintro s t ht rfl
    simp [text, hfree] at ht
  simp only [joinStrings, runOn_bind, runOn_ask]
  cases hl : h.text left with
  | error e => exact .of_error e
  | ok l =>
    cases hrt : h.text right with
    | error e => exact .of_error e
    | ok r =>
      intro v hv hcounted
      have hnew := slot?_allocate_of_hasNext h (l.append r) (hr.hasNext hs) h.nextSlot
      rw [if_pos rfl] at hnew
      refine ⟨h.nextSlot, ?_, ?_, l.append r, hnew⟩
      · rw [← allocate_fst h (l.append r)]
        exact (Except.ok.inj hv).symm
      · simp [(hdead hl).symm, (hdead hrt).symm]

theorem strings_subset_of_primitiveToString {v : Value} {s : StringRef} {h' : Heap}
    (hs : (primitiveToString v).runOn h = (.ok s, h')) : v.strings ⊆ [s] := by
  cases v with
  | string r =>
    obtain rfl := Except.ok.inj (congrArg Prod.fst hs)
    exact List.Subset.refl [r]
  | _ => exact List.nil_subset _

theorem strings_track_subset {v : Value} {scratch : Scratch} {s : StringRef}
    (hscratch : scratch.strings ⊆ apart) (hs : s ∈ apart) :
    (if v.isString then scratch else scratch.track s).strings ⊆ apart := by
  have htrack : (scratch.track s).strings ⊆ apart := by
    cases s with
    | builtin b => exact hscratch
    | heap slot =>
      by_cases hmem : .heap slot ∈ scratch.strings
      · simpa only [Scratch.track, if_pos hmem] using hscratch
      · simpa [Scratch.track, hmem] using ⟨hscratch, hs⟩
  split
  · exact hscratch
  · exact htrack

/-- The strings on the scratch list are among those that are joined, and so are the operands. -/
theorem addPrimitives_joined (hs : h.Sound) (hr : h.Room 3) (left right : Value) :
    Joined (left.strings ++ right.strings) ((addPrimitives left right).runOn h) := by
  unfold addPrimitives
  split
  · simp only [runOn_withScratch, ScratchM.runOn_bind, ScratchM.runOn_lift, ScratchM.runOn_trackFresh]
    obtain ⟨e, h₁, hl⟩ | ⟨leftString, h₁, hl, hs₁, hr₁⟩ :=
      (primitiveToString_settled left).outcome (n := 2) hs hr
    · simp only [hl]
      exact .of_error e
    · obtain ⟨e, h₂, hrt⟩ | ⟨rightString, h₂, hrt, hs₂, hr₂⟩ :=
        (primitiveToString_settled right).outcome (n := 1) hs₁ hr₁
      · simp only [hl, hrt]
        exact .of_error e
      · simp only [hl, hrt]
        have hjoin := joinStrings_joined hs₂ hr₂ leftString rightString
        have hleft : left.strings ⊆ [leftString] := strings_subset_of_primitiveToString hl
        have hright : right.strings ⊆ [rightString] := strings_subset_of_primitiveToString hrt
        refine (hjoin.recallAll ?_).mono ?_
        · exact strings_track_subset (strings_track_subset (List.nil_subset _) (by simp)) (by simp)
        · exact List.append_subset.mpr
            ⟨List.Subset.trans hleft (by simp), List.Subset.trans hright (by simp)⟩
  · refine .bind _ fun a _ => .bind _ fun b _ => .of_not_counted ?_
    exact Value.isCounted_of_isNumeric (isNumeric_addNumbers a b)

theorem withPrimitive_joined {n : Nat} (hs : h.Sound) (hr : h.Room (1 + n)) (v : Value) (hint : Hint)
    {body : Value → HeapM Value}
    (hbody : ∀ p h', h'.Sound → h'.Room n → Joined (p.strings ++ apart) ((body p).runOn h')) :
    Joined apart ((withPrimitive v hint body).runOn h) := by
  cases v with
  | object o =>
    simp only [withPrimitive, runOn_bind]
    obtain ⟨e, h₁, hp⟩ | ⟨p, h₁, hp, hs₁, hr₁⟩ := (toPrimitive_settled (.object o) hint).outcome hs hr
    · simp only [hp]
      exact .of_error e
    · simp only [hp]
      have hretained := hbody p (h₁.retain p) (sound_invariant.retain hs₁ p) ((room_invariant n).retain hr₁ p)
      exact (hretained.release (List.subset_append_left _ _)).mono (List.subset_append_right _ _)
  | _ => exact (hbody _ h hs (hr.mono (by omega))).mono (List.subset_append_right _ _)

theorem addGeneric_joined (hs : h.Sound) (hr : h.Room 5) (x y : Value) :
    Joined [] ((addGeneric x y).runOn h) := by
  refine withPrimitive_joined (n := 4) hs hr x .default fun left h₁ hs₁ hr₁ => ?_
  refine withPrimitive_joined (n := 3) hs₁ hr₁ y .default fun right h₂ hs₂ hr₂ => ?_
  refine (addPrimitives_joined hs₂ hr₂ left right).mono ?_
  simp

theorem add_joined (hs : h.Sound) (hr : h.Room 5) (x y : Value) : Joined [] ((add x y).runOn h) := by
  rcases add_cases x y with hsame | ⟨-, -, hnan⟩
  · rw [hsame]
    exact addGeneric_joined hs hr x y
  · rw [hnan]
    exact .of_not_counted rfl

/-! ### All operators -/

theorem onNumbers_joined {compute : Value → Value → Value}
    (hcompute : ∀ a b, (compute a b).isNumeric = true) (x y : Value) :
    Joined apart ((onNumbers compute x y).runOn h) := by
  have hnan : ∀ h', Joined apart ((pure Value.nan : HeapM Value).runOn h') := fun _ => .of_not_counted rfl
  refine .bind (resolve x) fun a? h₁ => ?_
  cases a? with
  | none => exact hnan h₁
  | some a =>
    refine .bind (resolve y) fun b? h₂ => ?_
    cases b? with
    | none => exact hnan h₂
    | some b => exact .of_not_counted (Value.isCounted_of_isNumeric (hcompute a b))

theorem joined_truth {β : Type} (a : HeapM β) (g : β → Bool) :
    Joined apart ((a >>= fun x => pure (Value.boolean (g x))).runOn h) :=
  .bind a fun _ _ => .of_not_counted rfl

/-- A result of an operator that the heap counts is a new string. -/
theorem BinaryOp.apply_joined (op : BinaryOp) (hs : h.Sound) (hr : h.Room 5) (x y : Value) :
    Joined [] ((op.apply x y).runOn h) := by
  cases op with
  | add => exact add_joined hs hr x y
  | sub => exact onNumbers_joined isNumeric_subNumbers x y
  | mul => exact onNumbers_joined isNumeric_mulNumbers x y
  | div => exact onNumbers_joined isNumeric_divNumbers x y
  | rem => exact onNumbers_joined isNumeric_remNumbers x y
  | looseNotEquals | strictNotEquals => exact joined_truth _ not
  | _ => exact joined_truth _ id

end ScriptCore
