import ScriptCore.Proofs.Calls
import ScriptCore.Proofs.WellFormed

/-! Growing heaps.

What a computation reads late must still be there. While values are converted heaps only grow (`Grows`): what
is alive stays alive, and objects are untouched. So a well-formed heap stays well-formed, and operands stay
usable. When a bracket closes it frees a string only if that was made for it, since the answers of objects
have holders (`Spares`).

`Yields` is the shape in which this is carried through a computation: it ends with a type error, or with a
result and a heap of which something is known. -/
namespace ScriptCore

open Heap HeapM

variable {α β : Type} {h h' h'' : Heap}

/-! ### Growing heaps -/

/-- What is alive stays alive, and objects are untouched. -/
structure Heap.Grows (h h' : Heap) : Prop where
  lasts : Lasts h h'
  objects : h'.objects = h.objects
  sound : h'.Sound

namespace Heap

theorem Grows.refl (hs : h.Sound) : Grows h h := ⟨.refl h, rfl, hs⟩

theorem Grows.trans (hg : Grows h h') (hg' : Grows h' h'') : Grows h h'' :=
  ⟨hg.lasts.trans hg'.lasts, hg'.objects.trans hg.objects, hg'.sound⟩

theorem Grows.allocate (hs : h.Sound) (t : Text) : Grows h (h.allocate t).2 :=
  ⟨.allocate hs t, (congrArg Heap.objects (besideStrings_allocate h t) :), hs.allocate t⟩

theorem Grows.logConversion (hs : h.Sound) (o : ObjectRef) (hint : Hint) : Grows h (h.logConversion o hint) :=
  ⟨.of_slots fun _ => rfl, rfl, sound_invariant.congr hs rfl rfl⟩

theorem objects_retain_of_isPrimitive {p : Value} (hp : p.isPrimitive = true) (h : Heap) :
    (h.retain p).objects = h.objects := by
  obtain ⟨slot, rfl⟩ | ⟨o, rfl⟩ | hv := isCounted_cases p
  · exact (congrArg Heap.objects (besideStrings_retain h slot) :)
  · cases hp
  · rw [retain_of_not_counted h p hv]

theorem objects_release_of_isPrimitive {p : Value} (hp : p.isPrimitive = true) (h : Heap) :
    (h.release p).objects = h.objects := by
  obtain ⟨slot, rfl⟩ | ⟨o, rfl⟩ | hv := isCounted_cases p
  · exact (congrArg Heap.objects (besideStrings_release h slot) :)
  · cases hp
  · rw [release_of_not_counted h p hv]

theorem Grows.retain (hs : h.Sound) {p : Value} (hp : p.isPrimitive = true) : Grows h (h.retain p) :=
  ⟨.retain h p, objects_retain_of_isPrimitive hp h, sound_invariant.retain hs p⟩

/-- If the value is a string that is alive, then somebody holds it. -/
def Spares (h : Heap) (v : Value) : Prop :=
  ∀ slot entry, v = .string (.heap slot) → h.slot? slot = some entry → 1 ≤ entry.refcount

/-- A bracket around a value frees nothing that was alive before the value came up. -/
theorem Grows.transient {p : Value} (hp : p.isPrimitive = true) (hspares : h.Spares p) (hg : Grows h h')
    (hbody : Grows (h'.retain p) h'') : Grows h (h''.release p) where
  lasts slot entry hslot := by
    obtain ⟨entry', hslot', htext, hcount⟩ := hg.lasts slot entry hslot
    have hopen := slot?_retain h' p slot
    rw [hslot'] at hopen
    rw [slot?_release]
    by_cases hv : p = .string (.heap slot)
    · rw [if_pos hv] at hopen
      obtain ⟨last, hlast, htext', hcount'⟩ := hbody.lasts slot _ hopen
      have hpos := hspares slot entry hv hslot
      simp only at hcount'
      have hmany : ¬ last.refcount ≤ 1 := by omega
      refine ⟨{ last with refcount := last.refcount - 1 }, by simp [hv, hlast, hmany], htext'.trans htext, ?_⟩
      simp only
      omega
    · rw [if_neg hv] at hopen
      obtain ⟨last, hlast, htext', hcount'⟩ := hbody.lasts slot entry' hopen
      exact ⟨last, by rw [if_neg hv, hlast], htext'.trans htext, Nat.le_trans hcount hcount'⟩
  objects := by
    rw [objects_release_of_isPrimitive hp, hbody.objects, objects_retain_of_isPrimitive hp, hg.objects]
  sound := sound_invariant.release hbody.sound p

/-- What matters is what objects lead to. -/
theorem WellFormed.of_held (hw : h.WellFormed) (hs : h'.Sound) (ho : h'.objects = h.objects)
    (hheld : ∀ slot entry, h.slot? slot = some entry → 1 ≤ entry.refcount →
      ∃ entry', h'.slot? slot = some entry' ∧ entry.refcount ≤ entry'.refcount) : h'.WellFormed := by
  have hobject : ∀ o, h'.object o = h.object o := fun o => by simp only [object, ho]
  have hends : ∀ {next n o}, h.EndsWithin next n o → h'.EndsWithin next n o :=
    fun hn => hn.of_objects fun o object hfound => (hobject o).trans hfound
  refine ⟨hs, fun slot hstores => ?_, fun o object hfound => ?_, fun o object hfound => ?_, ho ▸ hw.numbers⟩
  · obtain ⟨entry, hslot, hpos⟩ := hw.held slot (by simpa only [Stores, ho] using hstores)
    obtain ⟨entry', hslot', hcount⟩ := hheld slot entry hslot hpos
    exact ⟨entry', hslot', Nat.le_trans hpos hcount⟩
  · exact hends (hw.prototypes o object ((hobject o).symm.trans hfound))
  · exact hends (hw.targets o object ((hobject o).symm.trans hfound))

theorem WellFormed.grows (hw : h.WellFormed) (hg : Grows h h') : h'.WellFormed :=
  hw.of_held hg.sound hg.objects fun slot entry hslot _ =>
    have ⟨entry', hslot', _, hcount⟩ := hg.lasts slot entry hslot
    ⟨entry', hslot', hcount⟩

theorem WellFormed.frame (hw : h.WellFormed) (hf : Frame h h') : h'.WellFormed :=
  hw.of_held hf.sound hf.objects fun slot entry hslot hpos =>
    ⟨entry, hf.held slot entry hslot hpos, Nat.le_refl _⟩

theorem Grows.usable (hg : Grows h h') {v : Value} (hv : h.Usable v) : h'.Usable v := by
  cases v with
  | string s => exact hg.lasts.isLive hv
  | object o =>
    obtain ⟨object, hobject⟩ := hv
    exact ⟨object, by simpa only [Heap.object, hg.objects] using hobject⟩
  | environment _ | function _ => exact hv.elim
  | _ => trivial

/-! ### Answers of objects -/

variable {v : Value}

theorem usable_of_isPrimitive (hp : v.isPrimitive = true) (hlive : ∀ s, v = .string s → h.isLive s = true) :
    h.Usable v := by
  cases v with
  | string s => exact hlive s rfl
  | object _ | environment _ | function _ => cases hp
  | _ => trivial

theorem Answers.grows {r : Except Error Value × Heap} (hr : h.Answers r) (hs : h.Sound) : Grows h r.2 := by
  cases hr with
  | fails e => exact .refl hs
  | known v hv => exact .refl hs
  | fresh t => exact .allocate hs t

/-- A string that is allocated is alive, if need be in the place of another. -/
theorem isLive_allocate (hs : h.Sound) (t : Text) : (h.allocate t).2.isLive (h.allocate t).1 = true := by
  rw [allocate_fst, isLive_heap]
  by_cases hn : h.HasNext
  · exact ⟨⟨t, 0⟩, by rw [slot?_allocate_of_hasNext h t hn, if_pos rfl]⟩
  · obtain ⟨hfree, hfull⟩ := Classical.not_imp.mp (mt hs.hasNext hn)
    have hlt : h.nextSlot.toNat < h.strings.size := by
      have := h.nextSlot.toNat_lt
      omega
    rw [slot?_allocate_of_not_hasNext h t hn]
    refine Option.ne_none_iff_exists'.mp fun hnone => ?_
    simpa [hfree] using (hs.mem_iff _).mpr ⟨hlt, hnone⟩

theorem Answers.isLive (hw : h.WellFormed) (hr : h.Answers (.ok v, h')) {s : StringRef} (hv : v = .string s) :
    h'.isLive s = true := by
  cases hr with
  | fresh t =>
    obtain rfl := Value.string.inj hv
    exact isLive_allocate hw.sound t
  | known v hknown =>
    cases s with
    | builtin b => rfl
    | heap slot => exact hw.isLive (hv ▸ hknown slot hv)

/-- A value that an object answers with has a holder or comes from an empty slot. -/
theorem Answers.spares (hw : h.WellFormed) (hn : h.HasNext) (hr : h.Answers (.ok v, h')) : h.Spares v := by
  intro slot entry hv hslot
  cases hr with
  | fresh t =>
    obtain rfl : h.nextSlot = slot := by simpa [allocate_fst] using hv
    simp [slot?_nextSlot_of_sound hw.sound hn] at hslot
  | known v hknown =>
    obtain ⟨entry', hslot', hpos⟩ := hw.held slot (hv ▸ hknown slot hv)
    obtain rfl := Option.some.inj (hslot.symm.trans hslot')
    exact hpos

end Heap

/-! ### Computations -/

namespace HeapM

/-- A computation ends with a type error, or with a result and a heap of which the postcondition holds. -/
structure Yields (a : HeapM α) (h : Heap) (post : α → Heap → Prop) : Prop where
  fine : Fine (a.runOn h).1
  post : ∀ x h', a.runOn h = (.ok x, h') → post x h'

variable {a : HeapM α} {f : α → HeapM β} {mid : α → Heap → Prop} {post : β → Heap → Prop}

theorem Yields.pure {x : β} (hx : post x h) : (pure x : HeapM β).Yields h post where
  fine := .ok x
  post x' h' hrun := by
    obtain ⟨heq, rfl⟩ := Prod.mk.inj hrun
    obtain rfl := Except.ok.inj heq
    exact hx

theorem Yields.throw {e : Error} (he : e.kind = .typeError) : (throw e : HeapM β).Yields h post where
  fine := .error he
  post _ _ hrun := nomatch hrun

theorem Yields.bind (ha : a.Yields h mid) (hf : ∀ x h', mid x h' → (f x).Yields h' post) :
    (a >>= f).Yields h post := by
  cases hcase : a.runOn h with
  | mk outcome h' =>
    cases outcome with
    | error e =>
      have hrun : (a >>= f).runOn h = (.error e, h') := by rw [runOn_bind, hcase]
      have he : e.kind = .typeError := ha.fine e (by rw [hcase])
      exact ⟨by rw [hrun]; exact .error he, fun x g hg => by rw [hrun] at hg; cases hg⟩
    | ok x =>
      have hrun : (a >>= f).runOn h = (f x).runOn h' := by rw [runOn_bind, hcase]
      have hrest := hf x h' (ha.post x h' hcase)
      exact ⟨by rw [hrun]; exact hrest.fine, fun y g hg => hrest.post y g (hrun ▸ hg)⟩

theorem Yields.mono {more : α → Heap → Prop} (ha : a.Yields h mid) (hsub : ∀ x h', mid x h' → more x h') :
    a.Yields h more :=
  ⟨ha.fine, fun x h' hrun => hsub x h' (ha.post x h' hrun)⟩

theorem Yields.of_fine (ha : Fine (a.runOn h).1) : a.Yields h fun _ _ => True := ⟨ha, fun _ _ _ => trivial⟩

theorem Yields.ask_bind {question : Heap → Except Error α} (hq : Fine (question h))
    (hf : ∀ x, question h = .ok x → (f x).Yields h post) : (ask question >>= f).Yields h post := by
  have ha : (ask question).Yields h fun x h' => question h = .ok x ∧ h' = h :=
    ⟨hq, fun x h' hrun => ⟨congrArg Prod.fst hrun, (congrArg Prod.snd hrun).symm⟩⟩
  refine ha.bind fun x h' hx => ?_
  obtain ⟨hx, rfl⟩ := hx
  exact hf x hx

/-! When a computation is the last to read the heap, only its outcome matters. -/

theorem Yields.fine_bind (ha : a.Yields h mid) (hf : ∀ x h', mid x h' → Fine ((f x).runOn h').1) :
    Fine ((a >>= f).runOn h).1 := by
  have hbind : (a >>= f).Yields h fun _ _ => True := ha.bind fun x h' hx => .of_fine (hf x h' hx)
  exact hbind.fine

theorem fine_ask_bind {question : Heap → Except Error α} (hq : Fine (question h))
    (hf : ∀ x, question h = .ok x → Fine ((f x).runOn h).1) : Fine ((ask question >>= f).runOn h).1 := by
  have hbind : (ask question >>= f).Yields h fun _ _ => True := .ask_bind hq fun x hx => .of_fine (hf x hx)
  exact hbind.fine

theorem fine_map (ha : Fine (a.runOn h).1) (g : α → β) : Fine ((a >>= fun x => Pure.pure (g x)).runOn h).1 :=
  (Yields.of_fine ha).fine_bind fun x _ _ => .ok (g x)

end HeapM

end ScriptCore
