import ScriptCore.Proofs.Edits
import ScriptCore.Proofs.Holders

/-! The allocator of strings.

A heap may be asked anything in any order: to retain and release whatever values, dangling references among
them, more often than they are held, to recall strings that somebody holds, to build objects and to convert
and compute. Its free list names the empty slots, each once, all the same, so that an allocation never goes
to a slot in use; strings alive are strings allocated and not freed; and an operation on one string does
nothing to another (`grantAll_accounts`).

Both invariants are shown of the four operations on strings and carried over to everything else by `Edits`:
that the heap is sound, and that its counters tally. The second needs the first, since an allocation that
overwrote a string would count one too many. -/
namespace ScriptCore

open Heap HeapM

/-! ### Requests -/

/-- What a heap is asked to do. A bracket is a retain, what it is around, and a release. -/
inductive HeapRequest where
  | retain (v : Value)
  | release (v : Value)
  | reclaim (s : StringRef)
  /-- An allocation, a store into an object, a conversion or an operator. -/
  | command (c : HeapCommand)
  /-- An object of a class, of which nothing is checked and nothing retained. -/
  | newOfClass (payload : ObjectClass)
  | newNumberObject (v : Value)
  | newFunction (entry : Address)
  | setPrototype (o : ObjectRef) (p : Option ObjectRef)
  | defaultValue (o : ObjectRef) (hint : Hint)
  | dateToString (o : ObjectRef)
  | setSemantics (semantics : Semantics)
  | clearLog
  | resetStats

namespace Heap

/-- The heap after a request. Failing requests go unreported. -/
def grant (h : Heap) : HeapRequest → Heap
  | .retain v => h.retain v
  | .release v => h.release v
  | .reclaim s => h.reclaim s
  | .command c => h.step c
  | .newOfClass payload => ((ScriptCore.newOfClass payload).runOn h).2
  | .newNumberObject v => ((ScriptCore.newNumberObject v).runOn h).2
  | .newFunction entry => ((ScriptCore.newFunction entry).runOn h).2
  | .setPrototype o p => ((ScriptCore.setPrototype o p).runOn h).2
  | .defaultValue o hint => ((ScriptCore.defaultValue o hint).runOn h).2
  | .dateToString o => ((ScriptCore.dateToString o).runOn h).2
  | .setSemantics semantics => { h with semantics }
  | .clearLog => h.clearLog
  | .resetStats => h.resetStats

def grantAll (h : Heap) (requests : List HeapRequest) : Heap := requests.foldl grant h

end Heap

/-! ### Requests edit -/

theorem newOfClass_editing (payload : ObjectClass) : (newOfClass payload).Editing := fun _ => .addObject _ .refl

theorem updateObject_editing (o : ObjectRef) (f : Object → Object) : (updateObject o f).Editing :=
  .ask_bind _ fun _ _ => .beside .refl rfl rfl rfl

/-- A store retains, puts the value in its place and releases what was there. -/
theorem setProperty_editing (o : ObjectRef) (key : Text) (v : Value) : (setProperty o key v).Editing := by
  have hretain : (HeapM.change (·.retain v)).Editing := fun _ => .retain v .refl
  refine hretain.bind fun _ => .ask_bind _ fun object => ?_
  have hstore : (HeapM.change (·.setObject o (object.withProperty key.units v))).Editing :=
    fun _ => .beside .refl rfl rfl rfl
  refine hstore.bind fun _ => ?_
  cases object.property? key.units with
  | none => exact .pure ()
  | some old => exact fun _ => .release old .refl

theorem newFunction_editing (entry : Address) : (newFunction entry).Editing :=
  (newOfClass_editing _).bind fun prototype => (newOfClass_editing _).bind fun function =>
    (setProperty_editing function _ (.object prototype)).map _

namespace Heap

variable {h h' : Heap}

theorem step_edits (h : Heap) (c : HeapCommand) : Edits h (h.step c) := by
  cases c with
  | allocate t => exact .allocate t .refl
  | newObject => exact newOfClass_editing _ h
  | newArray elements => exact (Edits.refl.retainAll elements).addObject _
  | newStringObject s => exact (Edits.refl.retain _).addObject _
  | setProperty o key v => exact setProperty_editing o key v h
  | setHook o m hook => exact updateObject_editing o _ h
  | toObject v => exact toObject_editing v h
  | call c => exact c.run_edits h

/-- Everything but a reset of the counters edits. -/
theorem grant_edits (h : Heap) {r : HeapRequest} (hr : r ≠ .resetStats) : Edits h (h.grant r) := by
  cases r with
  | retain v => exact .retain v .refl
  | release v => exact .release v .refl
  | reclaim s => exact .reclaim s .refl
  | command c => exact step_edits h c
  | newOfClass payload => exact newOfClass_editing payload h
  | newNumberObject v => exact HeapM.Editing.ite (newOfClass_editing _) (.throw _) h
  | newFunction entry => exact newFunction_editing entry h
  | setPrototype o p => exact updateObject_editing o _ h
  | defaultValue o hint => exact defaultValue_editing o hint h
  | dateToString o => exact dateToString_editing o h
  | setSemantics semantics => exact .beside .refl rfl rfl rfl
  | clearLog => exact .beside .refl rfl rfl rfl
  | resetStats => exact absurd rfl hr

/-! ### Sound heaps -/

theorem Edits.sound (he : Edits h h') (hs : h.Sound) : h'.Sound := by
  induction he with
  | refl => exact hs
  | allocate t _ ih => exact ih.allocate t
  | retain v _ ih => exact sound_invariant.retain ih v
  | release v _ ih => exact sound_invariant.release ih v
  | reclaim s _ ih => exact sound_invariant.reclaim ih s
  | beside _ hstrings hfree _ ih => exact sound_invariant.congr ih hstrings hfree

theorem sound_grant (hs : h.Sound) (r : HeapRequest) : (h.grant r).Sound := by
  by_cases hr : r = .resetStats
  · subst hr
    exact sound_invariant.congr hs rfl rfl
  · exact (grant_edits h hr).sound hs

theorem sound_grantAll (hs : h.Sound) (requests : List HeapRequest) : (h.grantAll requests).Sound := by
  induction requests generalizing h with
  | nil => exact hs
  | cons r rest ih => exact ih (sound_grant hs r)

/-! ### Counters that tally -/

/-- The strings alive are those allocated and not freed. -/
def Tallies (h : Heap) : Prop := h.liveStringCount + h.stats.freed = h.stats.allocated

/-- A slot that changes counts for what is in it. -/
theorem liveStringCount_setSlot (h : Heap) {slot : UInt32} (hlt : slot.toNat < h.strings.size)
    (entry : Option StringSlot) :
    (h.setSlot slot entry).liveStringCount + (if (h.slot? slot).isSome then 1 else 0) =
      h.liveStringCount + if entry.isSome then 1 else 0 := by
  have hslot : h.slot? slot = h.strings[slot.toNat] := by simp [slot?, hlt]
  have hcounted := Array.boole_getElem_le_countP (p := (·.isSome)) hlt
  rw [liveStringCount, setSlot, Array.setIfInBounds_def, dif_pos hlt, Array.countP_set, hslot]
  unfold liveStringCount
  omega

theorem liveStringCount_setRefcount (h : Heap) (slot : UInt32) (change : Nat → Nat) :
    (h.setRefcount slot change).liveStringCount = h.liveStringCount := by
  cases hs : h.slot? slot with
  | none => simp [setRefcount, hs]
  | some entry =>
    have hcount := liveStringCount_setSlot h (lt_size_of_slot? hs)
      (some { entry with refcount := change entry.refcount })
    rw [hs] at hcount
    simpa [setRefcount, hs] using hcount

theorem Tallies.setRefcount (ht : h.Tallies) (slot : UInt32) (change : Nat → Nat) :
    (h.setRefcount slot change).Tallies := by
  rwa [Tallies, liveStringCount_setRefcount, stats_setRefcount]

/-- Only a slot that is not empty is freed, and that is counted. -/
theorem Tallies.freeSlot (ht : h.Tallies) (slot : UInt32) : (h.freeSlot slot).Tallies := by
  cases hs : h.slot? slot with
  | none => simpa [Heap.freeSlot, hs] using ht
  | some entry =>
    have hcount := liveStringCount_setSlot h (lt_size_of_slot? hs) none
    have hfreed : (h.freeSlot slot).liveStringCount = (h.setSlot slot none).liveStringCount := by
      simp [Heap.freeSlot, hs, liveStringCount]
    simp only [hs, Option.isSome_some, Option.isSome_none, if_true, Bool.false_eq_true, if_false] at hcount
    unfold Tallies at ht ⊢
    rw [hfreed, stats_freeSlot_of_some h hs]
    simp only
    omega

/-- A string goes to an empty slot of a sound heap, or to a new one. -/
theorem Tallies.allocate (ht : h.Tallies) (hs : h.Sound) (t : Text) : (h.allocate t).2.Tallies := by
  unfold Tallies at ht ⊢
  cases hfree : h.freeSlots with
  | nil =>
    simp only [Heap.allocate, hfree, liveStringCount, Array.countP_push, Option.isSome_some, if_true]
    unfold liveStringCount at ht
    omega
  | cons slot rest =>
    obtain ⟨hlt, hempty⟩ := (hs.mem_iff slot).mp (by simp [hfree])
    have hcount := liveStringCount_setSlot h hlt (some ⟨t, 0⟩)
    rw [hempty] at hcount
    have hlive : (h.allocate t).2.liveStringCount = (h.setSlot slot (some ⟨t, 0⟩)).liveStringCount := by
      simp [Heap.allocate, hfree, liveStringCount, setSlot]
    simp only [Option.isSome_some, Option.isSome_none, if_true, Bool.false_eq_true, if_false] at hcount
    rw [hlive, stats_allocate]
    simp only
    omega

theorem Tallies.retain (ht : h.Tallies) (v : Value) : (h.retain v).Tallies := by
  obtain ⟨slot, rfl⟩ | ⟨o, rfl⟩ | hv := isCounted_cases v
  · exact Tallies.setRefcount (h := h.countRetain) ht slot _
  · exact ht
  · rwa [retain_of_not_counted h v hv]

theorem Tallies.release (ht : h.Tallies) (v : Value) : (h.release v).Tallies := by
  obtain ⟨slot, rfl⟩ | ⟨o, rfl⟩ | hv := isCounted_cases v
  · have hcount : (h.countRelease.setRefcount slot (· - 1)).Tallies :=
      Tallies.setRefcount (h := h.countRelease) ht slot _
    unfold Heap.release
    simp only
    split
    · exact hcount.freeSlot slot
    · exact hcount
  · exact ht
  · rwa [release_of_not_counted h v hv]

theorem Tallies.reclaim (ht : h.Tallies) (s : StringRef) : (h.reclaim s).Tallies := by
  cases s with
  | builtin b => exact ht
  | heap slot =>
    unfold Heap.reclaim
    simp only
    split
    · exact Tallies.freeSlot (h := h.countRecall) ht slot
    · exact ht

theorem Edits.tallies (he : Edits h h') (hs : h.Sound) (ht : h.Tallies) : h'.Tallies := by
  induction he with
  | refl => exact ht
  | allocate t he ih => exact ih.allocate (he.sound hs) t
  | retain v _ ih => exact ih.retain v
  | release v _ ih => exact ih.release v
  | reclaim s _ ih => exact ih.reclaim s
  | beside _ hstrings _ hstats ih => rwa [Tallies, liveStringCount, hstrings, hstats]

theorem tallies_grantAll (hs : h.Sound) (ht : h.Tallies) {requests : List HeapRequest}
    (hr : .resetStats ∉ requests) : (h.grantAll requests).Tallies := by
  induction requests generalizing h with
  | nil => exact ht
  | cons r rest ih =>
    obtain ⟨hne, hrest⟩ := not_or.mp (mt List.mem_cons.mpr hr)
    exact ih (sound_grant hs r) ((grant_edits h (Ne.symm hne)).tallies hs ht) hrest

/-! ### The allocator -/

/-- After whatever requests, starting from an empty heap. The free list names the empty slots, each once. As
long as there are numbers for slots, a new string goes to an empty slot, where nobody holds it, and no other
slot changes. Unless the counters have been reset, the strings alive are those allocated and not freed.
Retains, releases and recalls leave alone every slot that they do not name. -/
theorem grantAll_accounts (settings : HeapSettings) (requests : List HeapRequest) :
    let h := (new settings).grantAll requests
    (h.freeSlots.Nodup ∧
      ∀ slot, slot ∈ h.freeSlots ↔ slot.toNat < h.strings.size ∧ h.slot? slot = none) ∧
    (h.strings.size < 2 ^ 32 → ∀ t, ∃ slot, (h.allocate t).1 = .heap slot ∧ h.slot? slot = none ∧
      (h.allocate t).2.slot? slot = some ⟨t, 0⟩ ∧
      ∀ other, other ≠ slot → (h.allocate t).2.slot? other = h.slot? other) ∧
    (.resetStats ∉ requests → h.liveStringCount + h.stats.freed = h.stats.allocated) ∧
    (∀ v slot, v ≠ .string (.heap slot) →
      (h.retain v).slot? slot = h.slot? slot ∧ (h.release v).slot? slot = h.slot? slot) ∧
    ∀ s slot, s ≠ .heap slot → (h.reclaim s).slot? slot = h.slot? slot := by
  intro h
  have hs : h.Sound := sound_grantAll (sound_new settings) requests
  refine ⟨⟨hs.nodup, hs.mem_iff⟩, fun hroom t => ?_, fun hr => ?_, fun v slot hv => ?_, fun s slot hne => ?_⟩
  · have hnext : h.HasNext := hs.hasNext fun _ => hroom
    refine ⟨h.nextSlot, allocate_fst h t, slot?_nextSlot_of_sound hs hnext, ?_, fun other hother => ?_⟩
    · rw [slot?_allocate_of_hasNext h t hnext, if_pos rfl]
    · rw [slot?_allocate_of_hasNext h t hnext, if_neg hother]
  · have hempty : (new settings).Tallies := rfl
    exact tallies_grantAll (sound_new settings) hempty hr
  · rw [slot?_retain, slot?_release, if_neg hv, if_neg hv]
    exact ⟨rfl, rfl⟩
  · cases s with
    | builtin b => rfl
    | heap named => rw [slot?_reclaim, if_neg fun heq => hne (by rw [heq])]

/-- A string released twice over, a recall of a slot that was never made, and an addition that makes a string
of two others and frees one of them on the way. -/
def overreleasing : List HeapRequest :=
  [.command (.allocate (Text.ofString "a")), .release (.string (.heap 0)), .release (.string (.heap 0)),
    .reclaim (.heap 7), .command (.allocate (Text.ofString "b")), .retain (.string (.heap 0)),
    .command (.call (.operator .add (.string (.heap 0)) (.int32 1))), .release (.string (.heap 1))]

theorem grantAll_accounts_overreleasing :
    .resetStats ∉ overreleasing ∧ ((new {}).grantAll overreleasing).strings.size < 2 ^ 32 ∧
      ((new {}).grantAll overreleasing).liveStringCount + ((new {}).grantAll overreleasing).stats.freed =
        ((new {}).grantAll overreleasing).stats.allocated ∧
      ∀ t, ∃ slot, (((new {}).grantAll overreleasing).allocate t).1 = .heap slot ∧
        ((new {}).grantAll overreleasing).slot? slot = none := by
  obtain ⟨-, hallocate, htally, -⟩ := grantAll_accounts {} overreleasing
  have hreset : .resetStats ∉ overreleasing := by simp [overreleasing]
  have hsize : ((new {}).grantAll overreleasing).strings.size < 2 ^ 32 := by decide +kernel
  refine ⟨hreset, hsize, htally hreset, fun t => ?_⟩
  obtain ⟨slot, hslot, hempty, -⟩ := hallocate hsize t
  exact ⟨slot, hslot, hempty⟩

end Heap
end ScriptCore
