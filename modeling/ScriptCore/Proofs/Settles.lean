import ScriptCore.Bracket
import ScriptCore.Proofs.Slots

/-! What computations leave behind.

A computation may retain, release, make and free strings as it likes, but in the end it owes the heap
three things (`Settles`). Retains and releases balance, and whatever somebody held when it began is as it
was (`Frame`). Of the strings that it made, at most those handed over are left, held by nobody
(`Leftover`). And it needs room for so many strings and no more.

Brackets are what makes this work. A value retained by `withTransient` is freed by the closing release if
it was handed over to the bracket (`Settles.transient`), a string on a scratch list by the closing recall
(`Settles.recallAll`). So computations settle when their parts do, and a failing part needs no argument of
its own, since a bracket closes on failure as well. -/
namespace ScriptCore

namespace Heap

/-! ### Beside the strings -/

/-- The heap without its strings and what is counted of them. -/
def besideStrings (h : Heap) : Heap :=
  { h with
    strings := #[]
    freeSlots := []
    stats := { retained := h.stats.retained, released := h.stats.released } }

section Aside
variable (h : Heap)

theorem besideStrings_setRefcount (slot : UInt32) (change : Nat → Nat) :
    (h.setRefcount slot change).besideStrings = h.besideStrings := by
  unfold setRefcount
  split <;> rfl

theorem besideStrings_freeSlot (slot : UInt32) : (h.freeSlot slot).besideStrings = h.besideStrings := by
  unfold freeSlot
  split <;> rfl

theorem besideStrings_allocate (t : Text) : (h.allocate t).2.besideStrings = h.besideStrings := by
  unfold allocate
  simp only
  split <;> rfl

theorem besideStrings_reclaim (s : StringRef) : (h.reclaim s).besideStrings = h.besideStrings := by
  cases s with
  | builtin b => rfl
  | heap slot =>
    unfold reclaim
    simp only
    split
    · exact besideStrings_freeSlot _ slot
    · rfl

theorem stats_setRefcount (slot : UInt32) (change : Nat → Nat) : (h.setRefcount slot change).stats = h.stats := by
  unfold setRefcount
  split <;> rfl

theorem stats_freeSlot_of_some {slot : UInt32} {entry : StringSlot} (hslot : h.slot? slot = some entry) :
    (h.freeSlot slot).stats = { h.stats with freed := h.stats.freed + 1 } := by
  simp only [freeSlot, hslot]

theorem stats_allocate (t : Text) :
    (h.allocate t).2.stats = { h.stats with allocated := h.stats.allocated + 1 } := by
  unfold allocate
  simp only
  split <;> rfl

/-- A retain of a string is counted and changes nothing else beside the strings. -/
theorem besideStrings_retain (slot : UInt32) :
    (h.retain (.string (.heap slot))).besideStrings = h.besideStrings.countRetain :=
  besideStrings_setRefcount h.countRetain slot _

theorem besideStrings_release (slot : UInt32) :
    (h.release (.string (.heap slot))).besideStrings = h.besideStrings.countRelease := by
  have hcount : (h.countRelease.setRefcount slot (· - 1)).besideStrings = h.besideStrings.countRelease :=
    besideStrings_setRefcount h.countRelease slot _
  unfold release
  simp only
  split
  · rw [besideStrings_freeSlot, hcount]
  · exact hcount

end Aside

/-! ### Retains and releases beside the strings -/

theorem isCounted_cases (v : Value) :
    (∃ slot, v = .string (.heap slot)) ∨ (∃ o, v = .object o) ∨ v.isCounted = false := by
  match v with
  | .string (.heap slot) => exact .inl ⟨slot, rfl⟩
  | .object o => exact .inr (.inl ⟨o, rfl⟩)
  | .string (.builtin _) | .undefined | .null | .none | .nan | .infinity _ | .boolean _ | .int32 _ | .double _
  | .environment _ | .function _ => exact .inr (.inr rfl)

section Counting
variable (h : Heap) (v : Value)

theorem retained_retain :
    (h.retain v).stats.retained = h.stats.retained + if v.isCounted then 1 else 0 := by
  obtain ⟨slot, rfl⟩ | ⟨o, rfl⟩ | hv := isCounted_cases v
  · exact (congrArg (·.stats.retained) (besideStrings_retain h slot) :)
  · rfl
  · simp [retain_of_not_counted h v hv, hv]

theorem released_retain : (h.retain v).stats.released = h.stats.released := by
  obtain ⟨slot, rfl⟩ | ⟨o, rfl⟩ | hv := isCounted_cases v
  · exact (congrArg (·.stats.released) (besideStrings_retain h slot) :)
  · rfl
  · rw [retain_of_not_counted h v hv]

theorem retained_release : (h.release v).stats.retained = h.stats.retained := by
  obtain ⟨slot, rfl⟩ | ⟨o, rfl⟩ | hv := isCounted_cases v
  · exact (congrArg (·.stats.retained) (besideStrings_release h slot) :)
  · rfl
  · rw [release_of_not_counted h v hv]

theorem released_release :
    (h.release v).stats.released = h.stats.released + if v.isCounted then 1 else 0 := by
  obtain ⟨slot, rfl⟩ | ⟨o, rfl⟩ | hv := isCounted_cases v
  · exact (congrArg (·.stats.released) (besideStrings_release h slot) :)
  · rfl
  · simp [release_of_not_counted h v hv, hv]

theorem log_retain : (h.retain v).log = h.log := by
  obtain ⟨slot, rfl⟩ | ⟨o, rfl⟩ | hv := isCounted_cases v
  · exact (congrArg Heap.log (besideStrings_retain h slot) :)
  · rfl
  · rw [retain_of_not_counted h v hv]

theorem log_release : (h.release v).log = h.log := by
  obtain ⟨slot, rfl⟩ | ⟨o, rfl⟩ | hv := isCounted_cases v
  · exact (congrArg Heap.log (besideStrings_release h slot) :)
  · rfl
  · rw [release_of_not_counted h v hv]

theorem semantics_retain : (h.retain v).semantics = h.semantics := by
  obtain ⟨slot, rfl⟩ | ⟨o, rfl⟩ | hv := isCounted_cases v
  · exact (congrArg Heap.semantics (besideStrings_retain h slot) :)
  · rfl
  · rw [retain_of_not_counted h v hv]

theorem semantics_release : (h.release v).semantics = h.semantics := by
  obtain ⟨slot, rfl⟩ | ⟨o, rfl⟩ | hv := isCounted_cases v
  · exact (congrArg Heap.semantics (besideStrings_release h slot) :)
  · rfl
  · rw [release_of_not_counted h v hv]

end Counting

/-- The objects of a heap with one count changed and changed back. -/
theorem objects_release_object_of_retain {h h' : Heap} {o : ObjectRef}
    (ho : h'.objects = (h.retain (.object o)).objects) : (h'.release (.object o)).objects = h.objects := by
  have hopen : h'.objects =
      h.objects.modify o.index.toNat fun object => { object with refcount := object.refcount + 1 } := ho
  have hclose : (h'.release (.object o)).objects =
      h'.objects.modify o.index.toNat fun object => { object with refcount := object.refcount - 1 } := rfl
  rw [hclose, hopen]
  refine Array.ext (by simp) fun i _ _ => ?_
  simp only [Array.getElem_modify]
  split <;> simp

/-- A retain and a release of a value cancel in the counts of objects. -/
theorem objects_release_of_retain {h h' : Heap} {v : Value} (ho : h'.objects = (h.retain v).objects) :
    (h'.release v).objects = h.objects := by
  obtain ⟨slot, rfl⟩ | ⟨o, rfl⟩ | hv := isCounted_cases v
  · have hopen : (h.retain (.string (.heap slot))).objects = h.objects :=
      (congrArg Heap.objects (besideStrings_retain h slot) :)
    have hclose : (h'.release (.string (.heap slot))).objects = h'.objects :=
      (congrArg Heap.objects (besideStrings_release h' slot) :)
    rw [hclose, ho, hopen]
  · exact objects_release_object_of_retain ho
  · rw [release_of_not_counted h' v hv, ho, retain_of_not_counted h v hv]

/-! ### Frames -/

/-- What a computation started in `h` leaves as it was. -/
structure Frame (h h' : Heap) : Prop where
  /-- As many retains as releases. -/
  balanced : ∃ n, h'.stats.retained = h.stats.retained + n ∧ h'.stats.released = h.stats.released + n
  held : ∀ slot entry, h.slot? slot = some entry → 1 ≤ entry.refcount → h'.slot? slot = some entry
  objects : h'.objects = h.objects
  /-- Conversions are added to the log, nothing is taken away. -/
  logged : ∃ entries, h'.log = h.log ++ entries
  semantics : h'.semantics = h.semantics
  sound : h'.Sound

variable {h h' h'' : Heap}

theorem Frame.refl (hs : h.Sound) : Frame h h where
  balanced := ⟨0, rfl, rfl⟩
  held _ _ hslot _ := hslot
  objects := rfl
  logged := ⟨#[], by simp⟩
  semantics := rfl
  sound := hs

theorem Frame.trans (hf : Frame h h') (hg : Frame h' h'') : Frame h h'' where
  balanced := by
    obtain ⟨m, hm, hm'⟩ := hf.balanced
    obtain ⟨n, hn, hn'⟩ := hg.balanced
    exact ⟨m + n, by omega, by omega⟩
  held slot entry hslot hpos := hg.held slot entry (hf.held slot entry hslot hpos) hpos
  objects := hg.objects.trans hf.objects
  logged := by
    obtain ⟨es, hes⟩ := hf.logged
    obtain ⟨fs, hfs⟩ := hg.logged
    exact ⟨es ++ fs, by rw [hfs, hes, Array.append_assoc]⟩
  semantics := hg.semantics.trans hf.semantics
  sound := hg.sound

/-- A change of the strings alone frames what it leaves held. -/
theorem Frame.of_besideStrings (hb : h'.besideStrings = h.besideStrings) (hs : h'.Sound)
    (hheld : ∀ slot entry, h.slot? slot = some entry → 1 ≤ entry.refcount → h'.slot? slot = some entry) :
    Frame h h' where
  balanced := ⟨0, (congrArg (·.stats.retained) hb :), (congrArg (·.stats.released) hb :)⟩
  held := hheld
  objects := (congrArg Heap.objects hb :)
  logged := ⟨#[], (congrArg Heap.log hb :).trans (Array.append_empty).symm⟩
  semantics := (congrArg Heap.semantics hb :)
  sound := hs

theorem Frame.allocate (hs : h.Sound) (t : Text) : Frame h (h.allocate t).2 :=
  .of_besideStrings (besideStrings_allocate h t) (hs.allocate t) fun _ _ hslot _ => hs.slot?_allocate t hslot

theorem Frame.reclaim (hs : h.Sound) (s : StringRef) : Frame h (h.reclaim s) := by
  refine .of_besideStrings (besideStrings_reclaim h s) (sound_invariant.reclaim hs s) ?_
  intro slot entry hslot hpos
  cases s with
  | builtin b => exact hslot
  | heap named =>
    rw [slot?_reclaim]
    by_cases hn : slot = named
    · have hne : entry.refcount ≠ 0 := by omega
      simp [← hn, hslot, hne]
    · rw [if_neg hn, hslot]

theorem Frame.logConversion (hs : h.Sound) (o : ObjectRef) (hint : Hint) : Frame h (h.logConversion o hint) where
  balanced := ⟨0, rfl, rfl⟩
  held _ _ hslot _ := hslot
  objects := rfl
  logged := ⟨#[(o, hint)], rfl⟩
  semantics := rfl
  sound := sound_invariant.congr hs rfl rfl

theorem held_transient {v : Value} (hf : Frame (h.retain v) h') {slot : UInt32} {entry : StringSlot}
    (hslot : h.slot? slot = some entry) (hpos : 1 ≤ entry.refcount) :
    (h'.release v).slot? slot = some entry := by
  have hopen := slot?_retain h v slot
  rw [slot?_release]
  by_cases hv : v = .string (.heap slot)
  · rw [if_pos hv, hslot, Option.map_some] at hopen
    have hne : ¬ entry.refcount + 1 ≤ 1 := by omega
    simp [hv, hf.held slot _ hopen (by simp), hne]
  · rw [if_neg hv] at hopen
    rw [if_neg hv, hf.held slot entry (hopen.trans hslot) hpos]

/-- A bracket frames what its body does. -/
theorem Frame.transient {v : Value} (hf : Frame (h.retain v) h') : Frame h (h'.release v) where
  balanced := by
    obtain ⟨n, hretained, hreleased⟩ := hf.balanced
    rw [retained_retain] at hretained
    rw [released_retain] at hreleased
    refine ⟨n + if v.isCounted then 1 else 0, ?_, ?_⟩
    · rw [retained_release, hretained]
      omega
    · rw [released_release, hreleased]
      omega
  held _ _ := held_transient hf
  objects := objects_release_of_retain hf.objects
  logged := by
    obtain ⟨entries, hentries⟩ := hf.logged
    exact ⟨entries, by rw [log_release, hentries, log_retain]⟩
  semantics := by rw [semantics_release, hf.semantics, semantics_retain]
  sound := sound_invariant.release hf.sound v

/-! ### Leftovers -/

/-- What is alive in `h'` was alive in `h`, in the same state, but for strings handed over, which nobody
holds. -/
def Leftover (handed : List StringRef) (h h' : Heap) : Prop :=
  ∀ slot entry, h'.slot? slot = some entry →
    h.slot? slot = some entry ∨ .heap slot ∈ handed ∧ entry.refcount = 0

variable {ss ts : List StringRef}

theorem Leftover.refl (ss : List StringRef) (h : Heap) : Leftover ss h h := fun _ _ hslot => .inl hslot

theorem Leftover.mono (hl : Leftover ss h h') (hsub : ∀ slot, .heap slot ∈ ss → .heap slot ∈ ts) :
    Leftover ts h h' :=
  fun slot entry hslot => (hl slot entry hslot).imp_right fun hmem => ⟨hsub slot hmem.1, hmem.2⟩

theorem Leftover.trans (hl : Leftover ss h h') (hl' : Leftover ts h' h'') : Leftover (ss ++ ts) h h'' := by
  intro slot entry hslot
  rcases hl' slot entry hslot with hold | ⟨hmem, hzero⟩
  · rcases hl slot entry hold with hold | ⟨hmem, hzero⟩
    · exact .inl hold
    · exact .inr ⟨List.mem_append_left ts hmem, hzero⟩
  · exact .inr ⟨List.mem_append_right ss hmem, hzero⟩

theorem Leftover.allocate (h : Heap) (t : Text) : Leftover [(h.allocate t).1] h (h.allocate t).2 := by
  intro slot entry hslot
  rw [allocate_fst, List.mem_singleton]
  by_cases hn : h.HasNext
  · rw [slot?_allocate_of_hasNext h t hn] at hslot
    by_cases hnext : slot = h.nextSlot
    · rw [if_pos hnext, Option.some.injEq] at hslot
      exact .inr ⟨by rw [hnext], by rw [← hslot]⟩
    · rw [if_neg hnext] at hslot
      exact .inl hslot
  · rw [slot?_allocate_of_not_hasNext h t hn] at hslot
    exact .inl hslot

/-- A recall takes a string off what is left. -/
theorem Leftover.reclaim {s : StringRef} (hl : Leftover (s :: ss) h h') : Leftover ss h (h'.reclaim s) := by
  intro slot entry hslot
  cases s with
  | builtin b => simpa using hl slot entry hslot
  | heap named =>
    rw [slot?_reclaim] at hslot
    by_cases hn : slot = named
    · rw [if_pos hn, ← hn] at hslot
      obtain ⟨entry', hentry, hkept⟩ := Option.bind_eq_some_iff.mp hslot
      split at hkept
      · simp at hkept
      · obtain rfl := Option.some.inj hkept
        exact .inl ((hl slot entry' hentry).resolve_right fun hz => absurd hz.2 ‹_›)
    · rw [if_neg hn] at hslot
      simpa [hn] using hl slot entry hslot

/-- A bracket around a value that was handed over leaves what its body leaves: the closing release frees a
string that nobody held. -/
theorem Leftover.transient {v : Value} (hl : Leftover v.string?.toList h h')
    (hbody : Leftover ts (h'.retain v) h'') : Leftover ts h (h''.release v) := by
  intro slot entry hslot
  have hopen := slot?_retain h' v slot
  rw [slot?_release] at hslot
  by_cases hv : v = .string (.heap slot)
  · rw [if_pos hv] at hopen hslot
    obtain ⟨entry', hentry', hkept⟩ := Option.bind_eq_some_iff.mp hslot
    split at hkept
    · simp at hkept
    · rename_i hmany
      rcases hbody slot entry' hentry' with hold | ⟨_, hzero⟩
      · rw [hopen, Option.map_eq_some_iff] at hold
        obtain ⟨first, hfirst, rfl⟩ := hold
        obtain rfl := Option.some.inj hkept
        -- The string is held beside the bracket, so it is not the one handed over.
        exact .inl ((hl slot first hfirst).resolve_right fun hz => by
          have := hz.2
          simp only at hmany
          omega)
      · omega
  · rw [if_neg hv] at hopen hslot
    rcases hbody slot entry hslot with hold | hnew
    · rw [hopen] at hold
      refine .inl ((hl slot entry hold).resolve_right fun hz => hv ?_)
      cases v <;> simp_all [Value.string?]
    · exact .inr hnew

/-! ### Settling -/

/-- What a computation owes the heap that it was started in, if it makes at most so many strings at once
and hands some of them over. -/
structure Settles (strings : Nat) (handed : List StringRef) (h h' : Heap) : Prop where
  frame : h.Sound → Frame h h'
  leftover : Leftover handed h h'
  room : ∀ n, h.Room (strings + n) → h'.Room n

variable {m n : Nat}

theorem Settles.refl (ss : List StringRef) (h : Heap) : Settles 0 ss h h where
  frame := .refl
  leftover := .refl ss h
  room n hr := hr.mono (by omega)

theorem Settles.mono (hs : Settles m ss h h') (hmn : m ≤ n)
    (hsub : ∀ slot, .heap slot ∈ ss → .heap slot ∈ ts) : Settles n ts h h' where
  frame := hs.frame
  leftover := hs.leftover.mono hsub
  room k hr := hs.room k (hr.mono (by omega))

theorem Settles.trans (hs : Settles m ss h h') (ht : Settles n ts h' h'') :
    Settles (m + n) (ss ++ ts) h h'' where
  frame hsound := (hs.frame hsound).trans (ht.frame (hs.frame hsound).sound)
  leftover := hs.leftover.trans ht.leftover
  room k hr := ht.room k (hs.room (n + k) (hr.mono (by omega)))

theorem Settles.allocate (h : Heap) (t : Text) : Settles 1 [(h.allocate t).1] h (h.allocate t).2 where
  frame hs := .allocate hs t
  leftover := .allocate h t
  room n hr := (hr.mono (by omega)).allocate t

theorem Settles.logConversion (h : Heap) (o : ObjectRef) (hint : Hint) :
    Settles 0 [] h (h.logConversion o hint) where
  frame hs := .logConversion hs o hint
  leftover := .refl [] h
  room n hr := (room_invariant n).congr (hr.mono (by omega)) rfl rfl

theorem Settles.reclaim {s : StringRef} (hs : Settles n (s :: ss) h h') : Settles n ss h (h'.reclaim s) where
  frame hsound := (hs.frame hsound).trans (.reclaim (hs.frame hsound).sound s)
  leftover := hs.leftover.reclaim
  room k hr := (room_invariant k).reclaim (hs.room k hr) s

/-- Recalling a scratch list takes its strings off what is left. -/
theorem Settles.recallAll (scratch : Scratch) (hs : Settles n (scratch.strings ++ ss) h h') :
    Settles n ss h (scratch.recallAll h') := by
  obtain ⟨strings⟩ := scratch
  show Settles n ss h (strings.foldl Heap.reclaim h')
  induction strings generalizing h' with
  | nil => exact hs
  | cons s rest ih => exact ih hs.reclaim

theorem Settles.transient {v : Value} (hs : Settles m v.string?.toList h h')
    (hbody : Settles n ts (h'.retain v) h'') : Settles (m + n) ts h (h''.release v) where
  frame hsound :=
    have hf := hs.frame hsound
    hf.trans (hbody.frame (sound_invariant.retain hf.sound v)).transient
  leftover := hs.leftover.transient hbody.leftover
  room k hr :=
    have hopened := (room_invariant (n + k)).retain (hs.room (n + k) (hr.mono (by omega))) v
    (room_invariant k).release (hbody.room k hopened) v

end Heap
end ScriptCore
