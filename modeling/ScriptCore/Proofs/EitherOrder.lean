import ScriptCore.Proofs.ConversionOrder

/-! The order in which the operands of a comparison are converted.

Whether one value is less than another is asked with either of them converted first. If the strings that
objects lead to have holders, a comparison that succeeds in one order succeeds in the other, with the same
answer, and leaves the same behind (`relate_either_order`). Only the notes of the two conversions change places.

The states in between differ: new strings go to other slots, and the brackets around the two primitive values
are nested the other way round. What corresponds is what a conversion comes to (`Heap.Delivers`): the same
content, whatever the heap has grown to when it begins, and a bracket that gives back what was retained and
made. Contents decide the comparison, what is given back decides the counters, and neither depends on the
order. -/
namespace ScriptCore

open Heap HeapM

variable {α : Type} {h h' g g' : Heap} {x y p q v : Value} {o : ObjectRef}

/-! ### What is given back -/

/-- The counters after so many brackets around strings and so many new strings, all given back. -/
def RefStats.spend (s : RefStats) (brackets strings : Nat) : RefStats :=
  { s with
    retained := s.retained + brackets
    released := s.released + brackets
    allocated := s.allocated + strings
    freed := s.freed + strings }

namespace Heap

/-- Strings and objects are as they were, and the counters tell what was given back in between. -/
structure Restores (h h' : Heap) (brackets strings : Nat) : Prop where
  slot? : ∀ slot, h'.slot? slot = h.slot? slot
  objects : h'.objects = h.objects
  stats : h'.stats = h.stats.spend brackets strings

theorem stats_retain_string (h : Heap) (slot : UInt32) :
    (h.retain (.string (.heap slot))).stats = { h.stats with retained := h.stats.retained + 1 } :=
  stats_setRefcount h.countRetain slot _

/-- A release frees the string after its last holder. -/
theorem stats_release_string (h : Heap) {slot : UInt32} {entry : StringSlot}
    (hslot : h.slot? slot = some entry) :
    (h.release (.string (.heap slot))).stats =
      { h.stats with
        released := h.stats.released + 1
        freed := h.stats.freed + if entry.refcount ≤ 1 then 1 else 0 } := by
  have hcounted : (h.countRelease.setRefcount slot (· - 1)).slot? slot =
      some { entry with refcount := entry.refcount - 1 } := by
    rw [slot?_setRefcount, if_pos rfl]
    exact congrArg (Option.map _) hslot
  have hstats : (h.countRelease.setRefcount slot (· - 1)).stats =
      { h.stats with released := h.stats.released + 1 } := stats_setRefcount h.countRelease slot _
  have hcount : (h.countRelease.setRefcount slot (· - 1)).stringRefcount? (.heap slot) = some 0 ↔
      entry.refcount ≤ 1 := by
    simp only [stringRefcount?, hcounted, Option.map_some, Option.some.injEq]
    omega
  simp only [release, hcount]
  split
  · rw [stats_freeSlot_of_some _ hcounted, hstats]
  · exact hstats

section Brackets
variable {brackets strings : Nat}

theorem Restores.refl (h : Heap) : Restores h h 0 0 := ⟨fun _ => rfl, rfl, rfl⟩

theorem Restores.of_logConversion {hint : Hint} (hr : Restores (h.logConversion o hint) h' brackets strings) :
    Restores h h' brackets strings := ⟨hr.slot?, hr.objects, hr.stats⟩

theorem Restores.uncounted (hv : v.isCounted = false) (hr : Restores (h.retain v) h' brackets strings) :
    Restores h (h'.release v) brackets strings := by
  rwa [release_of_not_counted h' v hv, ← retain_of_not_counted h v hv]

/-- A bracket around a string that somebody else holds. -/
theorem Restores.held {slot : UInt32} {entry : StringSlot} (hslot : h.slot? slot = some entry)
    (hpos : 1 ≤ entry.refcount) (hr : Restores (h.retain (.string (.heap slot))) h' brackets strings) :
    Restores h (h'.release (.string (.heap slot))) (1 + brackets) strings := by
  have hopen : h'.slot? slot = some { entry with refcount := entry.refcount + 1 } := by
    rw [hr.slot?, slot?_retain, if_pos rfl, hslot, Option.map_some]
  have hmany : ¬ entry.refcount + 1 ≤ 1 := by omega
  refine ⟨fun other => ?_, objects_release_of_retain hr.objects, ?_⟩
  · rw [slot?_release]
    by_cases hother : slot = other
    · subst hother
      rw [if_pos rfl, hopen, hslot, Option.bind_some, if_neg hmany, Nat.add_sub_cancel]
    · have hne : Value.string (.heap slot) ≠ .string (.heap other) := by simp [hother]
      rw [if_neg hne, hr.slot?, slot?_retain, if_neg hne]
  · rw [stats_release_string h' hopen, hr.stats, stats_retain_string]
    simp only [RefStats.spend, if_neg hmany, Nat.add_zero, RefStats.mk.injEq, and_true]
    omega

/-- A bracket around a string made for it, which goes with the bracket. -/
theorem Restores.fresh (hs : h.Sound) (hn : h.HasNext) {t : Text}
    (hr : Restores ((h.allocate t).2.retain (.string (h.allocate t).1)) h' brackets strings) :
    Restores h (h'.release (.string (h.allocate t).1)) (1 + brackets) (1 + strings) := by
  rw [allocate_fst] at hr ⊢
  have hopen : h'.slot? h.nextSlot = some ⟨t, 1⟩ := by
    rw [hr.slot?, slot?_retain, if_pos rfl, slot?_allocate_of_hasNext h t hn, if_pos rfl, Option.map_some]
  refine ⟨fun other => ?_, ?_, ?_⟩
  · rw [slot?_release]
    by_cases hother : h.nextSlot = other
    · subst hother
      rw [if_pos rfl, hopen, slot?_nextSlot_of_sound hs hn, Option.bind_some, if_pos (Nat.le_refl 1)]
    · have hne : Value.string (.heap h.nextSlot) ≠ .string (.heap other) := by simp [hother]
      rw [if_neg hne, hr.slot?, slot?_retain, if_neg hne, slot?_allocate_of_hasNext h t hn,
        if_neg (Ne.symm hother)]
  · rw [objects_release_of_retain hr.objects]
    exact (congrArg Heap.objects (besideStrings_allocate h t) :)
  · rw [stats_release_string h' hopen, hr.stats, stats_retain_string, stats_allocate]
    simp only [RefStats.spend, Nat.le_refl, if_true, RefStats.mk.injEq, true_and]
    omega

end Brackets

/-! ### What a comparison sees -/

/-- The content of a primitive value: the text of a string, any other value as it is. -/
inductive Reads (h : Heap) : Value → Text ⊕ Value → Prop where
  | text {s : StringRef} {t : Text} (ht : h.text s = .ok t) : h.Reads (.string s) (.inl t)
  | value {v : Value} (hv : v.isString = false) : h.Reads v (.inr v)

variable {c d : Text ⊕ Value}

theorem Reads.lasts (hl : Lasts h g) (hp : h.Reads p c) : g.Reads p c := by
  cases hp with
  | text ht => exact .text (hl.text_eq ht)
  | value hv => exact .value hv

theorem exists_reads_of_not_counted (hv : v.isCounted = false) : ∃ c, ∀ h : Heap, h.Reads v c := by
  cases v with
  | string s =>
    cases s with
    | builtin b => exact ⟨.inl (Text.ofBuiltin b), fun h => .text rfl⟩
    | heap slot => cases hv
  | _ => exact ⟨.inr _, fun h => .value rfl⟩

theorem primitiveToNumber_of_reads (hp : h.Reads p c) (hq : g.Reads q c) :
    h.primitiveToNumber p = g.primitiveToNumber q := by
  cases hp with
  | text ht =>
    cases hq with
    | text ht' => rw [primitiveToNumber, primitiveToNumber, ht, ht']
  | value hv =>
    cases hq with
    | value _ =>
      cases p with
      | string s => cases hv
      | _ => rfl

theorem comparePrimitives_of_not_strings (h : Heap) (hpq : p.isString = false ∨ q.isString = false) :
    h.comparePrimitives p q =
      (do return Relation.ofNumbers (← h.primitiveToNumber p) (← h.primitiveToNumber q)) := by
  unfold comparePrimitives
  split
  · rcases hpq with hp | hq <;> contradiction
  · rfl

/-- Values with the same contents are ordered alike. -/
theorem comparePrimitives_of_reads {p' q' : Value} (hp : h.Reads p c) (hq : h.Reads q d) (hp' : g.Reads p' c)
    (hq' : g.Reads q' d) : h.comparePrimitives p q = g.comparePrimitives p' q' := by
  have hnumbers : (p.isString = false ∨ q.isString = false) → (p'.isString = false ∨ q'.isString = false) →
      h.comparePrimitives p q = g.comparePrimitives p' q' := fun hpq hpq' => by
    rw [comparePrimitives_of_not_strings h hpq, comparePrimitives_of_not_strings g hpq',
      primitiveToNumber_of_reads hp hp', primitiveToNumber_of_reads hq hq']
  cases hp with
  | value hv =>
    cases hp' with
    | value _ => exact hnumbers (.inl hv) (.inl hv)
  | text hs =>
    cases hq with
    | value hv =>
      cases hq' with
      | value _ => exact hnumbers (.inr hv) (.inr hv)
    | text ht =>
      cases hp' with
      | text hs' =>
        cases hq' with
        | text ht' => rw [comparePrimitives, comparePrimitives, hs, ht, hs', ht']

/-! ### What a conversion comes to -/

/-- The strings that objects lead to have holders. -/
def RetainsStored (h : Heap) : Prop :=
  ∀ slot, h.Stores (.string (.heap slot)) → ∃ entry, h.slot? slot = some entry ∧ 1 ≤ entry.refcount

/-- What objects lead to is still there when a heap has grown. -/
theorem Grows.shows (hheld : h.RetainsStored) (hg : Grows h g) : h.Shows g where
  objects := hg.objects
  text s hs := by
    cases s with
    | builtin b => rfl
    | heap slot =>
      obtain ⟨entry, hslot, -⟩ := hheld slot hs
      have ht : h.text (.heap slot) = .ok entry.text := text_heap_eq_ok.mpr ⟨entry, hslot, rfl⟩
      rw [hg.lasts.text_eq ht, ht]

/-- A bracket around a value with the given content is open, and closing it gives back what it took. -/
structure Opens (h : Heap) (p : Value) (opened : Heap) (c : Text ⊕ Value) (brackets strings : Nat) :
    Prop where
  grows : Grows h opened
  reads : opened.Reads p c
  restores : ∀ g m n, Restores opened g m n → Restores h (g.release p) (brackets + m) (strings + n)

/-- In whatever a heap may grow to, a conversion comes to a value with the given content, which takes so many
brackets and so many strings. -/
def Delivers (h : Heap) (a : HeapM Value) (c : Text ⊕ Value) (brackets strings : Nat) : Prop :=
  ∀ g room, Grows h g → g.Room (room + 1) → ∃ p g', a.runOn g = (.ok p, g') ∧ (g'.retain p).Room room ∧
    g.Opens p (g'.retain p) c brackets strings

theorem Opens.of_logConversion (hs : h.Sound) {hint : Hint} {brackets strings : Nat}
    (ho : (h.logConversion o hint).Opens p g c brackets strings) : h.Opens p g c brackets strings where
  grows := (Grows.logConversion hs o hint).trans ho.grows
  reads := ho.reads
  restores k m n hk := (ho.restores k m n hk).of_logConversion

variable {a : HeapM Value}

theorem delivers_uncounted (hv : v.isCounted = false) (ha : ∀ g, Grows h g → a.runOn g = (.ok v, g)) :
    ∃ c, h.Delivers a c 0 0 := by
  obtain ⟨c, hreads⟩ := exists_reads_of_not_counted hv
  refine ⟨c, fun g room hg hroom => ⟨v, g, ha g hg, ?_, ?_, hreads _, fun k m n hk => ?_⟩⟩
  · exact (room_invariant room).retain (hroom.mono (Nat.le_succ room)) v
  · rw [retain_of_not_counted g v hv]
    exact .refl hg.sound
  · rw [Nat.zero_add, Nat.zero_add]
    exact hk.uncounted hv

theorem delivers_held {slot : UInt32} {entry : StringSlot} (hslot : h.slot? slot = some entry)
    (hpos : 1 ≤ entry.refcount) (ha : ∀ g, Grows h g → a.runOn g = (.ok (.string (.heap slot)), g)) :
    h.Delivers a (.inl entry.text) 1 0 := by
  intro g room hg hroom
  obtain ⟨entry', hslot', htext, hcount⟩ := hg.lasts slot entry hslot
  refine ⟨.string (.heap slot), g, ha g hg, ?_, .retain hg.sound rfl, .text ?_, fun k m n hk => ?_⟩
  · exact (room_invariant room).retain (hroom.mono (Nat.le_succ room)) _
  · rw [text_retain]
    exact text_heap_eq_ok.mpr ⟨entry', hslot', htext⟩
  · rw [Nat.zero_add]
    exact hk.held hslot' (Nat.le_trans hpos hcount)

theorem delivers_fresh {t : Text}
    (ha : ∀ g, Grows h g → a.runOn g = (.ok (.string (g.allocate t).1), (g.allocate t).2)) :
    h.Delivers a (.inl t) 1 1 := by
  intro g room hg hroom
  have hn := hroom.hasNext hg.sound
  refine ⟨_, _, ha g hg, (room_invariant room).retain (hroom.allocate t) _,
    (Grows.allocate hg.sound t).trans (.retain (hg.sound.allocate t) rfl), .text ?_,
    fun k m n hk => hk.fresh hg.sound hn⟩
  rw [text_retain, allocate_fst]
  exact text_heap_eq_ok.mpr ⟨⟨t, 0⟩, by rw [slot?_allocate_of_hasNext g t hn, if_pos rfl], rfl⟩

/-- A conversion that succeeds in one of the heaps that `h` may grow to comes to the same in all of them. -/
theorem Replies.delivers (hheld : h.RetainsStored) (ha : h.Replies a)
    (hprimitive : ∀ v g g', a.runOn g = (.ok v, g') → v.isPrimitive = true) (hg : Grows h g)
    (hrun : a.runOn g = (.ok p, g')) : ∃ c brackets strings, h.Delivers a c brackets strings := by
  cases ha with
  | fails e ha =>
    rw [ha g (hg.shows hheld)] at hrun
    cases hrun
  | fresh t ha => exact ⟨_, _, _, delivers_fresh fun k hk => ha k (hk.shows hheld)⟩
  | known v hv ha =>
    have hanswer : ∀ k, Grows h k → a.runOn k = (.ok v, k) := fun k hk => ha k (hk.shows hheld)
    obtain ⟨slot, rfl⟩ | ⟨o, rfl⟩ | huncounted := isCounted_cases v
    · obtain ⟨entry, hslot, hpos⟩ := hheld slot (hv slot rfl)
      exact ⟨_, _, _, delivers_held hslot hpos hanswer⟩
    · cases hprimitive _ g g (hanswer g hg)
    · obtain ⟨c, hdelivers⟩ := delivers_uncounted huncounted hanswer
      exact ⟨c, 0, 0, hdelivers⟩

/-- What an object comes to does not depend on when it is converted. -/
theorem toPrimitive_delivers (hheld : h.RetainsStored) {hint : Hint} (hg : Grows h g)
    (hrun : (toPrimitive (.object o) hint).runOn g = (.ok p, g')) :
    ∃ c brackets strings, h.Delivers (toPrimitive (.object o) hint) c brackets strings := by
  rcases toPrimitive_replies h o hint with hreplies | hnoted
  · exact hreplies.delivers hheld (fun _ _ _ => isPrimitive_of_toPrimitive) hg hrun
  · rw [hnoted g (hg.shows hheld)] at hrun
    obtain ⟨c, brackets, strings, hdelivers⟩ := (firstPrimitive_replies h o hint.methods).delivers hheld
      (fun _ _ _ => isPrimitive_of_firstPrimitive) (hg.trans (.logConversion hg.sound o hint)) hrun
    refine ⟨c, brackets, strings, fun k room hk hroom => ?_⟩
    obtain ⟨q, k', hrun', hroom', hopens⟩ := hdelivers (k.logConversion o hint) room
      (hk.trans (.logConversion hk.sound o hint)) ((room_invariant (room + 1)).congr hroom rfl rfl)
    exact ⟨q, k', (hnoted k (hk.shows hheld)).trans hrun', hroom', hopens.of_logConversion hk.sound⟩

/-- A question about two values that are converted one after the other is asked of the contents that both come
to, and what it took is given back. -/
theorem Delivers.nest {o₁ o₂ : ObjectRef} {c d : Text ⊕ Value} {hint : Hint} {k l m n : Nat}
    (hx : h.Delivers (toPrimitive (.object o₁) hint) c k l)
    (hy : h.Delivers (toPrimitive (.object o₂) hint) d m n) (hs : h.Sound) (hroom : h.Room 2)
    (question : Value → Value → Heap → Except Error α) :
    ∃ p q g h', (withPrimitive (.object o₁) hint fun p => withPrimitive (.object o₂) hint fun q =>
        HeapM.ask (question p q)).runOn h = (question p q g, h') ∧
      g.Reads p c ∧ g.Reads q d ∧ Restores h h' (k + m) (l + n) := by
  obtain ⟨p, g₁, hp, hroom₁, hopens₁⟩ := hx h 1 (.refl hs) hroom
  obtain ⟨q, g₂, hq, -, hopens₂⟩ := hy (g₁.retain p) 0 hopens₁.grows hroom₁
  refine ⟨p, q, g₂.retain q, ((g₂.retain q).release q).release p, ?_, hopens₁.reads.lasts hopens₂.grows.lasts,
    hopens₂.reads, hopens₁.restores _ _ _ (hopens₂.restores _ _ _ (.refl _))⟩
  simp only [withPrimitive, runOn_bind, hp, runOn_withTransient, hq, runOn_ask]

end Heap

/-! ### Both orders -/

theorem runOn_withPrimitive_ok {hint : Hint} {f : Value → HeapM α} {a : α}
    (hrun : (withPrimitive (.object o) hint f).runOn h = (.ok a, h')) :
    ∃ p g g', (toPrimitive (.object o) hint).runOn h = (.ok p, g) ∧ (f p).runOn (g.retain p) = (.ok a, g') ∧
      h' = g'.release p := by
  simp only [withPrimitive, runOn_bind] at hrun
  cases hp : (toPrimitive (.object o) hint).runOn h with
  | mk outcome g =>
    rw [hp] at hrun
    cases outcome with
    | error e => cases hrun
    | ok p =>
      obtain ⟨ha, rfl⟩ := Prod.mk.inj ((runOn_withTransient p (f p) g).symm.trans hrun)
      exact ⟨p, g, _, rfl, Prod.ext ha rfl, rfl⟩

/-- Two objects that compare in one order compare in the other. -/
theorem relate_objects {o₁ o₂ : ObjectRef} (hs : h.Sound) (hroom : h.Room 2) (hheld : h.RetainsStored)
    {r : Relation} (hrun : (relate (.object o₁) (.object o₂) true).runOn h = (.ok r, h')) :
    ∃ h'' brackets strings, (relate (.object o₁) (.object o₂) false).runOn h = (.ok r, h'') ∧
      Restores h h' brackets strings ∧ Restores h h'' brackets strings := by
  -- The comparison got through both conversions, so each comes to something.
  obtain ⟨p, g, g', hp, hinner, -⟩ := runOn_withPrimitive_ok hrun
  obtain ⟨c, k, l, hx⟩ := toPrimitive_delivers hheld (.refl hs) hp
  have hgrows : Grows h (g.retain p) := by
    obtain ⟨_, _, hp', -, hopens⟩ := hx h 1 (.refl hs) hroom
    rw [hp, Prod.mk.injEq, Except.ok.injEq] at hp'
    obtain ⟨rfl, rfl⟩ := hp'
    exact hopens.grows
  obtain ⟨q, g'', _, hq, -, -⟩ := runOn_withPrimitive_ok hinner
  obtain ⟨d, m, n, hy⟩ := toPrimitive_delivers hheld hgrows hq
  -- Nested in either way they come to the same contents and take the same.
  obtain ⟨_, _, _, _, hrun₁, hp₁, hq₁, hrestores₁⟩ := hx.nest hy hs hroom fun p q g => g.comparePrimitives p q
  obtain ⟨_, _, _, _, hrun₂, hq₂, hp₂, hrestores₂⟩ := hy.nest hx hs hroom fun q p g => g.comparePrimitives p q
  rw [Nat.add_comm m, Nat.add_comm n] at hrestores₂
  obtain ⟨hr, rfl⟩ := Prod.mk.inj (hrun.symm.trans hrun₁)
  refine ⟨_, _, _, hrun₂.trans (Prod.ext ?_ rfl), hrestores₁, hrestores₂⟩
  rw [hr]
  exact comparePrimitives_of_reads hp₂ hq₂ hp₁ hq₁

/-- Which operand is converted first makes no difference unless both are. -/
theorem relate_of_not_objects (hxy : x.isObject = false ∨ y.isObject = false) :
    relate x y false = relate x y true := by
  have hdirect : ∀ {v : Value} {f : Value → HeapM Relation}, v.isObject = false →
      withPrimitive v .number f = f v := fun {v f} hv => by
    cases v with
    | object o => cases hv
    | _ => rfl
  unfold relate
  split
  · rfl
  · rcases hxy with hx | hy
    · simp only [hdirect hx, Bool.false_eq_true, if_false, if_true]
    · simp only [hdirect hy, Bool.false_eq_true, if_false, if_true]

theorem Heap.length_note_le (h : Heap) (noted : ObjectClass → Bool) (hint : Hint) (v : Value) :
    (h.note noted hint v).length ≤ 1 := by
  simpa using (h.note_sublist noted hint v).length_le

theorem BinaryOp.length_conversions_le (op : BinaryOp) (hxy : x.isObject = false ∨ y.isObject = false) :
    (op.conversions x y h).length ≤ 1 := by
  have hx := h.length_note_le op.converts op.hint x
  have hy := h.length_note_le op.converts op.hint y
  unfold conversions
  split
  · exact Nat.zero_le 1
  rw [List.length_append]
  split
  · rcases hxy with hnone | hnone
    · rwa [note_of_not_object hnone, List.length_nil, Nat.zero_add]
    · rwa [note_of_not_object hnone, List.length_nil, Nat.add_zero]
  · rwa [List.length_nil, Nat.add_zero]

/-- If the first of two objects is converted, both conversions are noted. -/
theorem BinaryOp.conversions_of_objects {op : BinaryOp} (hop : op.isRelational = true) {o₁ o₂ : ObjectRef}
    (hrun : (toPrimitive (.object o₁) .number).runOn h = (.ok p, g)) :
    op.conversions (.object o₁) (.object o₂) h =
      h.note (!·.isDate) .number (.object o₁) ++ h.note (!·.isDate) .number (.object o₂) := by
  rw [conversions_of_defined hop (by simp), hrun]
  rfl

/-- If the strings that objects lead to have holders, then a comparison that succeeds when the left operand is
converted first succeeds when the right one is, with the same answer. It leaves the same strings alive, with
the same texts and holders, the same objects and the same counters. What it adds to the log are the same notes,
at most one for each operand, in the other order. Nothing is asked of the operands: a string among them need not
even be alive, since only what is converted is converted in some order. -/
theorem relate_either_order (hs : h.Sound) (hroom : h.Room 2) (hheld : h.RetainsStored) {r : Relation}
    (hrun : (relate x y true).runOn h = (.ok r, h')) :
    ∃ h'' first second, (relate x y false).runOn h = (.ok r, h'') ∧
      (∀ slot, h''.slot? slot = h'.slot? slot) ∧ h''.objects = h'.objects ∧ h''.stats = h'.stats ∧
      first.length ≤ 1 ∧ second.length ≤ 1 ∧
      h'.log.toList = h.log.toList ++ (first ++ second) ∧ h''.log.toList = h.log.toList ++ (second ++ first) := by
  have hless : BinaryOp.less.isRelational = true := rfl
  have hlog := (relate_logs (h := h) hless x y).1.log
  rw [hrun] at hlog
  by_cases hobjects : ∃ o₁ o₂, x = .object o₁ ∧ y = .object o₂
  · obtain ⟨o₁, o₂, rfl, rfl⟩ := hobjects
    obtain ⟨h'', k, l, hrun', hrestores, hrestores'⟩ := relate_objects hs hroom hheld hrun
    have hlog' := (relate_logs (h := h) hless (.object o₂) (.object o₁)).2.log
    rw [hrun'] at hlog'
    obtain ⟨_, _, _, hp, -⟩ := runOn_withPrimitive_ok hrun
    obtain ⟨_, _, _, hq, -⟩ := runOn_withPrimitive_ok hrun'
    rw [BinaryOp.conversions_of_objects hless hp] at hlog
    rw [BinaryOp.conversions_of_objects hless hq] at hlog'
    exact ⟨h'', _, _, hrun', fun slot => (hrestores'.slot? slot).trans (hrestores.slot? slot).symm,
      hrestores'.objects.trans hrestores.objects.symm, hrestores'.stats.trans hrestores.stats.symm,
      h.length_note_le _ _ _, h.length_note_le _ _ _, hlog, hlog'⟩
  · have hone : x.isObject = false ∨ y.isObject = false := by
      cases x with
      | object o₁ =>
        cases y with
        | object o₂ => exact absurd ⟨o₁, o₂, rfl, rfl⟩ hobjects
        | _ => exact .inr rfl
      | _ => exact .inl rfl
    refine ⟨h', BinaryOp.less.conversions x y h, [], ?_, fun _ => rfl, rfl, rfl,
      BinaryOp.length_conversions_le .less hone, Nat.zero_le 1, ?_, hlog⟩
    · rw [relate_of_not_objects hone, hrun]
    · rw [List.append_nil, hlog]

/-- Two objects that answer with new strings. A string that one of them stores is held. -/
def letterPair : Heap :=
  { strings := #[some ⟨Text.ofString "c", 1⟩]
    objects := #[{ payload := .object, valueOf? := some (.freshString "a") },
      { payload := .array, elements := [.string (.heap 0)], valueOf? := some (.freshString "b") }] }

theorem sound_letterPair : letterPair.Sound :=
  sound_invariant.congr (sound_invariant.retain ((sound_new {}).allocate (Text.ofString "c")) (.string (.heap 0)))
    rfl rfl

theorem retainsStored_letterPair : letterPair.RetainsStored := by
  rintro slot ⟨object, hobject, hvalue⟩
  have hzero : slot = 0 := by
    simp only [letterPair, List.mem_toArray, List.mem_cons, List.not_mem_nil, or_false] at hobject
    rcases hobject with rfl | rfl
    · simp [Object.values, ObjectClass.values, Hook.values] at hvalue
    · simpa [Object.values, ObjectClass.values, Hook.values] using hvalue
  exact hzero ▸ ⟨⟨Text.ofString "c", 1⟩, rfl, Nat.le_refl 1⟩

/-- In either order the string made first goes to the next slot, and both are gone in the end. -/
theorem relate_either_order_letterPair :
    letterPair.Sound ∧ letterPair.Room 2 ∧ letterPair.RetainsStored ∧
      ∃ h' h'', (relate (.object ⟨0⟩) (.object ⟨1⟩) true).runOn letterPair = (.ok .less, h') ∧
        (relate (.object ⟨0⟩) (.object ⟨1⟩) false).runOn letterPair = (.ok .less, h'') ∧
        h''.stats = h'.stats ∧ ∀ slot, h''.slot? slot = h'.slot? slot := by
  have hroom : letterPair.Room 2 := by constructor <;> decide
  have hless : ((relate (.object ⟨0⟩) (.object ⟨1⟩) true).runOn letterPair).1 = .ok .less := by decide +kernel
  obtain ⟨h'', _, _, hrun, hslots, _, hstats, _⟩ :=
    relate_either_order sound_letterPair hroom retainsStored_letterPair (Prod.ext hless rfl)
  exact ⟨sound_letterPair, hroom, retainsStored_letterPair, _, h'', Prod.ext hless rfl, hrun, hstats, hslots⟩

end ScriptCore
