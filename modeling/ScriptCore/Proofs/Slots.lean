import ScriptCore.Heap
import Mathlib.Data.List.Nodup

/-! The slots of strings.

What each operation on strings does to the slots is one equation on `slot?`: an allocation fills
`nextSlot`, a retain and a release change one count, a release and a recall may empty the slot that they
name, and no other slot is touched.

The free list of a sound heap names the empty slots, each once (`Sound`). A heap starts sound and every
operation keeps it so, which is why an allocation in a sound heap overwrites nothing
(`slot?_nextSlot_of_sound`). Slots have numbers of 32 bits, so a heap has room for only so many strings
(`Room`), and how many is a matter of the strings alive (`Sound.size_eq`). -/
namespace ScriptCore.Heap

variable (h : Heap)

/-! ### Looking up -/

theorem lt_size_of_slot? {h : Heap} {slot : UInt32} {entry : StringSlot} (hs : h.slot? slot = some entry) :
    slot.toNat < h.strings.size := by
  by_contra hlt
  simp [slot?, Array.getElem?_eq_none (Nat.le_of_not_lt hlt)] at hs

theorem isLive_heap (slot : UInt32) : h.isLive (.heap slot) = true ↔ ∃ entry, h.slot? slot = some entry := by
  simp [isLive, Option.isSome_iff_exists]

/-- A live string has a text. -/
theorem exists_text {h : Heap} {s : StringRef} (hs : h.isLive s = true) : ∃ t, h.text s = .ok t := by
  cases s with
  | builtin b => exact ⟨_, rfl⟩
  | heap slot =>
    obtain ⟨entry, hslot⟩ := (isLive_heap h slot).mp hs
    exact ⟨entry.text, by simp only [text, hslot]⟩

theorem text_heap_eq_ok {h : Heap} {slot : UInt32} {t : Text} :
    h.text (.heap slot) = .ok t ↔ ∃ entry, h.slot? slot = some entry ∧ entry.text = t := by
  simp only [text]
  cases h.slot? slot <;> simp

/-! ### Emptying and counting -/

theorem slot?_setSlot_of_some {slot : UInt32} {entry : StringSlot} (hs : h.slot? slot = some entry)
    (new : Option StringSlot) (other : UInt32) :
    (h.setSlot slot new).slot? other = if other = slot then new else h.slot? other := by
  simp [slot?_setSlot, lt_size_of_slot? hs]

theorem slot?_setRefcount (slot : UInt32) (change : Nat → Nat) (other : UInt32) :
    (h.setRefcount slot change).slot? other =
      if other = slot then (h.slot? slot).map fun entry => { entry with refcount := change entry.refcount }
      else h.slot? other := by
  unfold setRefcount
  cases hs : h.slot? slot with
  | none => by_cases ho : other = slot <;> simp [ho, hs]
  | some entry => simp [slot?_setSlot_of_some h hs]

theorem slot?_freeSlot (slot other : UInt32) :
    (h.freeSlot slot).slot? other = if other = slot then none else h.slot? other := by
  unfold freeSlot
  cases hs : h.slot? slot with
  | none => by_cases ho : other = slot <;> simp [ho, hs]
  | some entry => exact slot?_setSlot_of_some h hs none other

theorem slot?_retain (v : Value) (slot : UInt32) :
    (h.retain v).slot? slot =
      if v = .string (.heap slot) then
        (h.slot? slot).map fun entry => { entry with refcount := entry.refcount + 1 }
      else h.slot? slot := by
  unfold retain
  split
  · rename_i named
    rw [slot?_setRefcount]
    by_cases hn : slot = named
    · subst hn
      simp only [if_true]
      rfl
    · simp only [hn, if_false, Value.string.injEq, StringRef.heap.injEq, Ne.symm hn]
      rfl
  · simp only [reduceCtorEq, if_false]
    rfl
  · rename_i hstring _
    rw [if_neg fun hv => hstring slot hv]

theorem text_retain (v : Value) : (h.retain v).text = h.text := by
  funext s
  cases s with
  | builtin b => rfl
  | heap slot =>
    simp only [text, slot?_retain]
    by_cases hv : v = .string (.heap slot)
    · rw [if_pos hv]
      cases h.slot? slot <;> rfl
    · rw [if_neg hv]

/-- A release takes one holder away and empties the slot after the last. -/
theorem slot?_release (v : Value) (slot : UInt32) :
    (h.release v).slot? slot =
      if v = .string (.heap slot) then
        (h.slot? slot).bind fun entry =>
          if entry.refcount ≤ 1 then none else some { entry with refcount := entry.refcount - 1 }
      else h.slot? slot := by
  unfold release
  split
  · rename_i named
    have hcount := slot?_setRefcount h.countRelease named (· - 1)
    have hbase : ∀ k, h.countRelease.slot? k = h.slot? k := fun _ => rfl
    simp only [hbase] at hcount
    by_cases hn : slot = named
    · subst hn
      cases hs : h.slot? slot with
      | none => simp [stringRefcount?, hcount, hs]
      | some entry =>
        by_cases hle : entry.refcount ≤ 1
        · have hzero : entry.refcount - 1 = 0 := by omega
          simp [stringRefcount?, hcount, hs, hle, hzero, slot?_freeSlot]
        · have hpos : entry.refcount - 1 ≠ 0 := by omega
          simp [stringRefcount?, hcount, hs, hle, hpos]
    · have hv : Value.string (.heap named) ≠ .string (.heap slot) := by simp [Ne.symm hn]
      rw [if_neg hv]
      simp only
      split <;> simp [slot?_freeSlot, hcount, hn]
  · simp only [reduceCtorEq, if_false]
    rfl
  · rename_i hstring _
    rw [if_neg fun hv => hstring slot hv]

/-- A recall empties the slot of a string without holders. -/
theorem slot?_reclaim (slot other : UInt32) :
    (h.reclaim (.heap slot)).slot? other =
      if other = slot then (h.slot? slot).bind fun entry => if entry.refcount = 0 then none else some entry
      else h.slot? other := by
  have hbase : ∀ k, h.countRecall.slot? k = h.slot? k := fun _ => rfl
  unfold reclaim
  cases hs : h.slot? slot with
  | none => by_cases ho : other = slot <;> simp [stringRefcount?, hbase, hs, ho]
  | some entry =>
    by_cases hz : entry.refcount = 0 <;> by_cases ho : other = slot <;>
      simp [stringRefcount?, hbase, hs, hz, slot?_freeSlot, ho]

/-! ### Allocating -/

/-- The slot that the next string goes to. -/
def nextSlot : UInt32 :=
  match h.freeSlots with
  | slot :: _ => slot
  | [] => UInt32.ofNat h.strings.size

/-- The next slot exists, or can be made and has a number. -/
def HasNext : Prop :=
  match h.freeSlots with
  | slot :: _ => slot.toNat < h.strings.size
  | [] => h.strings.size < 2 ^ 32

theorem allocate_fst (t : Text) : (h.allocate t).1 = .heap h.nextSlot := by
  unfold allocate nextSlot
  split <;> simp_all

theorem slot?_allocate_of_cons {slot : UInt32} {rest : List UInt32} (hfree : h.freeSlots = slot :: rest)
    (t : Text) (other : UInt32) :
    (h.allocate t).2.slot? other =
      if other = slot ∧ slot.toNat < h.strings.size then some ⟨t, 0⟩ else h.slot? other := by
  unfold allocate
  simp only [hfree]
  exact slot?_setSlot _ slot other _

theorem slot?_allocate_of_nil (hfree : h.freeSlots = []) (t : Text) (other : UInt32) :
    (h.allocate t).2.slot? other = if other.toNat = h.strings.size then some ⟨t, 0⟩ else h.slot? other := by
  unfold allocate
  simp only [hfree, slot?, Array.getElem?_push]
  split <;> rfl

/-- When all slots that have numbers are in use, the string goes where no reference leads. -/
theorem slot?_allocate_of_not_hasNext (t : Text) (hn : ¬ h.HasNext) (other : UInt32) :
    (h.allocate t).2.slot? other = h.slot? other := by
  unfold HasNext at hn
  split at hn
  · rename_i hfree
    simp [slot?_allocate_of_cons h hfree, hn]
  · rename_i hfree
    have hlt := other.toNat_lt
    rw [slot?_allocate_of_nil h hfree, if_neg (by omega)]

theorem slot?_allocate_of_hasNext (t : Text) (hn : h.HasNext) (other : UInt32) :
    (h.allocate t).2.slot? other = if other = h.nextSlot then some ⟨t, 0⟩ else h.slot? other := by
  unfold HasNext at hn
  unfold nextSlot
  split at hn
  · rename_i hfree
    simp [slot?_allocate_of_cons h hfree, hn]
  · rename_i hfree
    have heq : other = UInt32.ofNat h.strings.size ↔ other.toNat = h.strings.size := by
      rw [← UInt32.toNat_inj, UInt32.toNat_ofNat_of_lt' hn]
    simp only [slot?_allocate_of_nil h hfree, heq]

/-! ### Invariants of the slots -/

/-- A property of the slots and the free list that survives a change of counts and the emptying of a slot.
It then survives retains, releases and recalls. -/
structure SlotInvariant (P : Heap → Prop) : Prop where
  congr : ∀ {h g : Heap}, P h → g.strings = h.strings → g.freeSlots = h.freeSlots → P g
  setRefcount : ∀ {h : Heap} (slot : UInt32) (change : Nat → Nat), P h → P (h.setRefcount slot change)
  freeSlot : ∀ {h : Heap} (slot : UInt32), P h → P (h.freeSlot slot)

section Invariant
variable {h} {P : Heap → Prop}

theorem SlotInvariant.retain (hP : SlotInvariant P) (hh : P h) (v : Value) : P (h.retain v) := by
  unfold Heap.retain
  split
  · exact hP.setRefcount _ _ (hP.congr (g := h.countRetain) hh rfl rfl)
  · exact hP.congr hh rfl rfl
  · exact hh

theorem SlotInvariant.release (hP : SlotInvariant P) (hh : P h) (v : Value) : P (h.release v) := by
  unfold Heap.release
  split
  · rename_i slot
    have hcount : P (h.countRelease.setRefcount slot (· - 1)) :=
      hP.setRefcount _ _ (hP.congr (g := h.countRelease) hh rfl rfl)
    simp only
    split
    · exact hP.freeSlot slot hcount
    · exact hcount
  · exact hP.congr hh rfl rfl
  · exact hh

theorem SlotInvariant.reclaim (hP : SlotInvariant P) (hh : P h) (s : StringRef) : P (h.reclaim s) := by
  cases s with
  | builtin b => exact hh
  | heap slot =>
    have hcount : P h.countRecall := hP.congr hh rfl rfl
    unfold Heap.reclaim
    simp only
    split
    · exact hP.freeSlot slot hcount
    · exact hcount

end Invariant

/-! ### Sound heaps -/

/-- The free list names the empty slots, each once. -/
structure Sound : Prop where
  nodup : h.freeSlots.Nodup
  mem_iff : ∀ slot, slot ∈ h.freeSlots ↔ slot.toNat < h.strings.size ∧ h.slot? slot = none

variable {h}

theorem sound_new (settings : HeapSettings) : (new settings).Sound where
  nodup := List.nodup_nil
  mem_iff slot := by simp [new]

theorem sound_invariant : SlotInvariant Sound where
  congr hs hstrings hfree := by
    refine ⟨hfree ▸ hs.nodup, fun slot => ?_⟩
    have := hs.mem_iff slot
    simpa [slot?, hstrings, hfree] using this
  setRefcount {h} slot change hs := by
    have hfree : (h.setRefcount slot change).freeSlots = h.freeSlots := by
      unfold Heap.setRefcount
      split <;> rfl
    have hsize : (h.setRefcount slot change).strings.size = h.strings.size := by
      unfold Heap.setRefcount
      split <;> simp [setSlot]
    refine ⟨hfree ▸ hs.nodup, fun other => ?_⟩
    rw [hfree, hsize, slot?_setRefcount, hs.mem_iff]
    by_cases ho : other = slot <;> simp [ho]
  freeSlot {h} slot hs := by
    cases hslot : h.slot? slot with
    | none => simpa [Heap.freeSlot, hslot] using hs
    | some entry =>
      have hfree : (h.freeSlot slot).freeSlots = slot :: h.freeSlots := by simp [Heap.freeSlot, hslot]
      have hsize : (h.freeSlot slot).strings.size = h.strings.size := by
        simp [Heap.freeSlot, hslot, setSlot]
      have hout : slot ∉ h.freeSlots := fun hmem => by simp [((hs.mem_iff slot).mp hmem).2] at hslot
      refine ⟨by rw [hfree]; exact List.nodup_cons.mpr ⟨hout, hs.nodup⟩, fun other => ?_⟩
      rw [hfree, hsize, slot?_freeSlot, List.mem_cons, hs.mem_iff]
      by_cases ho : other = slot
      · simp [ho, lt_size_of_slot? hslot]
      · simp [ho]

/-- A sound heap cannot run out of slots unless all are in use. -/
theorem Sound.hasNext (hs : h.Sound) (hroom : h.freeSlots = [] → h.strings.size < 2 ^ 32) : h.HasNext := by
  unfold HasNext
  split
  · rename_i slot rest hfree
    exact ((hs.mem_iff slot).mp (by simp [hfree])).1
  · exact hroom ‹_›

/-- An allocation in a sound heap overwrites nothing. -/
theorem slot?_nextSlot_of_sound (hs : h.Sound) (hn : h.HasNext) : h.slot? h.nextSlot = none := by
  unfold HasNext at hn
  split at hn
  · rename_i slot rest hfree
    have hnext : h.nextSlot = slot := by simp [nextSlot, hfree]
    exact hnext ▸ ((hs.mem_iff slot).mp (by simp [hfree])).2
  · rename_i hfree
    have hnext : h.nextSlot.toNat = h.strings.size := by
      simp [nextSlot, hfree, UInt32.toNat_ofNat_of_lt' hn]
    simp [slot?, hnext]

/-- What is alive stays as it is when a string is allocated. -/
theorem Sound.slot?_allocate (hs : h.Sound) (t : Text) {slot : UInt32} {entry : StringSlot}
    (hslot : h.slot? slot = some entry) : (h.allocate t).2.slot? slot = some entry := by
  by_cases hn : h.HasNext
  · have hne : slot ≠ h.nextSlot := fun heq => by
      rw [heq, slot?_nextSlot_of_sound hs hn] at hslot
      simp at hslot
    rw [slot?_allocate_of_hasNext h t hn, if_neg hne, hslot]
  · rw [slot?_allocate_of_not_hasNext h t hn, hslot]

theorem Sound.allocate (hs : h.Sound) (t : Text) : (h.allocate t).2.Sound := by
  cases hfree : h.freeSlots with
  | cons slot rest =>
    have hnodup := List.nodup_cons.mp (hfree ▸ hs.nodup)
    have hrest : (h.allocate t).2.freeSlots = rest := by simp [Heap.allocate, hfree]
    have hsize : (h.allocate t).2.strings.size = h.strings.size := by simp [Heap.allocate, hfree, setSlot]
    have hlt : slot.toNat < h.strings.size := ((hs.mem_iff slot).mp (by simp [hfree])).1
    refine ⟨hrest ▸ hnodup.2, fun other => ?_⟩
    rw [hrest, hsize, slot?_allocate_of_cons h hfree]
    have hmem := hs.mem_iff other
    rw [hfree, List.mem_cons] at hmem
    by_cases ho : other = slot
    · simp [ho, hnodup.1, hlt]
    · simpa [ho] using hmem
  | nil =>
    have hnil : (h.allocate t).2.freeSlots = [] := by simp [Heap.allocate, hfree]
    have hsize : (h.allocate t).2.strings.size = h.strings.size + 1 := by simp [Heap.allocate, hfree]
    refine ⟨by simp [hnil], fun other => ?_⟩
    rw [hnil, hsize, slot?_allocate_of_nil h hfree]
    have hmem := hs.mem_iff other
    simp only [hfree, List.not_mem_nil, false_iff, not_and] at hmem ⊢
    by_cases ho : other.toNat = h.strings.size
    · simp [ho]
    · rw [if_neg ho]
      exact fun hlt => hmem (by omega)

/-! ### What lasts -/

/-- What is alive in `h` is alive in `h'`, with its text and at least as many holders. -/
def Lasts (h h' : Heap) : Prop :=
  ∀ slot entry, h.slot? slot = some entry →
    ∃ entry', h'.slot? slot = some entry' ∧ entry'.text = entry.text ∧ entry.refcount ≤ entry'.refcount

section Lasting
variable {h' h'' : Heap}

theorem Lasts.of_slots (hslots : ∀ slot, h'.slot? slot = h.slot? slot) : Lasts h h' :=
  fun slot entry hslot => ⟨entry, (hslots slot).trans hslot, rfl, Nat.le_refl _⟩

theorem Lasts.refl (h : Heap) : Lasts h h := .of_slots fun _ => rfl

theorem Lasts.trans (hl : Lasts h h') (hl' : Lasts h' h'') : Lasts h h'' := by
  intro slot entry hslot
  obtain ⟨entry', hslot', htext, hcount⟩ := hl slot entry hslot
  obtain ⟨entry'', hslot'', htext', hcount'⟩ := hl' slot entry' hslot'
  exact ⟨entry'', hslot'', htext'.trans htext, Nat.le_trans hcount hcount'⟩

theorem Lasts.retain (h : Heap) (v : Value) : Lasts h (h.retain v) := by
  intro slot entry hslot
  rw [slot?_retain, hslot]
  split
  · exact ⟨_, rfl, rfl, Nat.le_succ _⟩
  · exact ⟨entry, rfl, rfl, Nat.le_refl _⟩

theorem Lasts.isLive (hl : Lasts h h') {s : StringRef} (hs : h.isLive s = true) : h'.isLive s = true := by
  cases s with
  | builtin b => rfl
  | heap slot =>
    obtain ⟨entry, hslot⟩ := (isLive_heap h slot).mp hs
    obtain ⟨entry', hslot', _⟩ := hl slot entry hslot
    exact (isLive_heap h' slot).mpr ⟨entry', hslot'⟩

theorem Lasts.text_eq (hl : Lasts h h') {s : StringRef} {t : Text} (ht : h.text s = .ok t) :
    h'.text s = .ok t := by
  cases s with
  | builtin b => exact ht
  | heap slot =>
    obtain ⟨entry, hslot, rfl⟩ := text_heap_eq_ok.mp ht
    obtain ⟨entry', hslot', htext, _⟩ := hl slot entry hslot
    exact text_heap_eq_ok.mpr ⟨entry', hslot', htext⟩

theorem Lasts.allocate (hs : h.Sound) (t : Text) : Lasts h (h.allocate t).2 :=
  fun _ entry hslot => ⟨entry, hs.slot?_allocate t hslot, rfl, Nat.le_refl _⟩

end Lasting

/-! ### Room -/

variable (h) in
/-- There are numbers for `n` more slots in use, whether these slots are made already or not. -/
structure Room (n : Nat) : Prop where
  size_le : h.strings.size ≤ 2 ^ 32
  fits : h.strings.size + n ≤ 2 ^ 32 + h.freeSlots.length

variable {n : Nat}

theorem Room.mono (hr : h.Room n) {k : Nat} (hk : k ≤ n) : h.Room k :=
  ⟨hr.size_le, Nat.le_trans (Nat.add_le_add_left hk _) hr.fits⟩

theorem Room.hasNext (hr : h.Room (n + 1)) (hs : h.Sound) : h.HasNext := by
  refine hs.hasNext fun hfree => ?_
  have := hr.fits
  simp only [hfree, List.length_nil] at this
  omega

theorem Room.allocate (hr : h.Room (n + 1)) (t : Text) : (h.allocate t).2.Room n := by
  obtain ⟨hsize, hfits⟩ := hr
  cases hfree : h.freeSlots with
  | cons slot rest =>
    simp only [hfree, List.length_cons] at hfits
    constructor <;> simp only [Heap.allocate, hfree, setSlot, Array.size_setIfInBounds] <;> omega
  | nil =>
    simp only [hfree, List.length_nil] at hfits
    constructor <;> simp only [Heap.allocate, hfree, Array.size_push, List.length_nil] <;> omega

theorem room_invariant (n : Nat) : SlotInvariant (Room · n) where
  congr hr hstrings hfree := ⟨hstrings ▸ hr.size_le, hstrings ▸ hfree ▸ hr.fits⟩
  setRefcount {h} slot change hr := by
    obtain ⟨hsize, hfits⟩ := hr
    unfold Heap.setRefcount
    split <;> constructor <;> simpa [setSlot]
  freeSlot {h} slot hr := by
    obtain ⟨hsize, hfits⟩ := hr
    cases hslot : h.slot? slot with
    | none => simpa only [Heap.freeSlot, hslot] using ⟨hsize, hfits⟩
    | some entry =>
      constructor <;>
        simp only [Heap.freeSlot, hslot, setSlot, Array.size_setIfInBounds, List.length_cons] <;> omega

/-! ### Counting the slots in use -/

variable (h) in
/-- The slots made so far. -/
def slots : List UInt32 := (List.range h.strings.size).map UInt32.ofNat

variable (h) in
def liveSlots : List UInt32 := h.slots.filter fun slot => (h.slot? slot).isSome

theorem mem_slots (hsize : h.strings.size ≤ 2 ^ 32) {slot : UInt32} :
    slot ∈ h.slots ↔ slot.toNat < h.strings.size := by
  simp only [slots, List.mem_map, List.mem_range]
  constructor
  · rintro ⟨i, hi, rfl⟩
    rwa [UInt32.toNat_ofNat_of_lt' (Nat.lt_of_lt_of_le hi hsize)]
  · exact fun hlt => ⟨slot.toNat, hlt, UInt32.ofNat_toNat⟩

theorem nodup_slots (hsize : h.strings.size ≤ 2 ^ 32) : h.slots.Nodup := by
  refine List.Nodup.map_on (fun i hi j hj heq => ?_) List.nodup_range
  have hi := Nat.lt_of_lt_of_le (List.mem_range.mp hi) hsize
  have hj := Nat.lt_of_lt_of_le (List.mem_range.mp hj) hsize
  rw [← UInt32.toNat_inj, UInt32.toNat_ofNat_of_lt' hi, UInt32.toNat_ofNat_of_lt' hj] at heq
  exact heq

theorem nodup_liveSlots (hsize : h.strings.size ≤ 2 ^ 32) : h.liveSlots.Nodup := (nodup_slots hsize).filter _

theorem mem_liveSlots (hsize : h.strings.size ≤ 2 ^ 32) {slot : UInt32} :
    slot ∈ h.liveSlots ↔ ∃ entry, h.slot? slot = some entry := by
  rw [liveSlots, List.mem_filter, mem_slots hsize, Option.isSome_iff_exists]
  exact ⟨And.right, fun hlive => ⟨lt_size_of_slot? hlive.choose_spec, hlive⟩⟩

/-- Each slot of a sound heap is in use or on the free list. -/
theorem Sound.size_eq (hs : h.Sound) (hsize : h.strings.size ≤ 2 ^ 32) :
    h.strings.size = h.liveSlots.length + h.freeSlots.length := by
  have hfree : (h.slots.filter fun slot => !(h.slot? slot).isSome).Perm h.freeSlots := by
    refine (List.perm_ext_iff_of_nodup ((nodup_slots hsize).filter _) hs.nodup).mpr fun slot => ?_
    rw [List.mem_filter, mem_slots hsize, hs.mem_iff]
    simp
  have hsplit := List.length_eq_length_filter_add (l := h.slots) fun slot => (h.slot? slot).isSome
  have hlength : h.slots.length = h.strings.size := by simp [slots]
  rw [hfree.length_eq, hlength] at hsplit
  exact hsplit

/-- There is room as long as few strings have come to life since there was. -/
theorem Room.of_few {start : Heap} {k : Nat} (hr : start.Room (k + n)) (hstart : start.Sound)
    (hs : h.Sound) (hsize : h.strings.size ≤ 2 ^ 32) (new : List UInt32) (hnew : new.length ≤ k)
    (hlive : ∀ slot entry, h.slot? slot = some entry → (∃ old, start.slot? slot = some old) ∨ slot ∈ new) :
    h.Room n := by
  have hsub : h.liveSlots ⊆ start.liveSlots ++ new := by
    intro slot hmem
    obtain ⟨entry, hentry⟩ := (mem_liveSlots hsize).mp hmem
    rw [List.mem_append, mem_liveSlots hr.size_le]
    exact hlive slot entry hentry
  have hcount := (nodup_liveSlots hsize).length_le_of_subset hsub
  have hfits := hr.fits
  have hstartSize := hstart.size_eq hr.size_le
  have hendSize := hs.size_eq hsize
  rw [List.length_append] at hcount
  exact ⟨hsize, by omega⟩

end ScriptCore.Heap
