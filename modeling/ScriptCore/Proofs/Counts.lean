import ScriptCore.Proofs.Conversions

/-! How far counts go.

Counts are natural numbers here. A machine keeps them in words of 32 bits, which come round to zero after
`2 ^ 32 - 1`, so that a string with one holder more than that looks like one without any. What is proved of the
counts of a heap is therefore said of heaps whose counts leave room for the retains to come
(`Heap.CountsWithin`). Only a retain raises a count, and by one; what settles leaves no count higher than it was
(`CountsWithin.of_leftover`). From an empty heap on no count is above the number of retains so far
(`Heap.CountsRetains`). -/
namespace ScriptCore
namespace Heap

/-- No string and no object has more holders than this. -/
structure CountsWithin (n : Nat) (h : Heap) : Prop where
  strings : ∀ slot entry, h.slot? slot = some entry → entry.refcount ≤ n
  objects : ∀ (i : Nat) (object : Object), h.objects[i]? = some object → object.refcount ≤ n

variable {h h' : Heap} {m n : Nat}

namespace CountsWithin

theorem mono (hc : h.CountsWithin m) (hmn : m ≤ n) : h.CountsWithin n where
  strings slot entry hslot := Nat.le_trans (hc.strings slot entry hslot) hmn
  objects i object hobject := Nat.le_trans (hc.objects i object hobject) hmn

/-- To look through all entries is enough. -/
theorem of_mem (hstrings : ∀ entry, some entry ∈ h.strings → entry.refcount ≤ n)
    (hobjects : ∀ object ∈ h.objects, object.refcount ≤ n) : h.CountsWithin n where
  strings _ entry hslot := hstrings entry (Array.mem_of_getElem? (Option.join_eq_some_iff.mp hslot))
  objects _ object hobject := hobjects object (Array.mem_of_getElem? hobject)

/-- A change of the counts of objects. -/
theorem setObjectRefcount (hc : h.CountsWithin m) (hmn : m ≤ n) (o : ObjectRef) {change : Nat → Nat}
    (hchange : ∀ k, k ≤ m → change k ≤ n) : (h.setObjectRefcount o change).CountsWithin n where
  strings := (hc.mono hmn).strings
  objects i object hobject := by
    simp only [Heap.setObjectRefcount, Array.getElem?_modify] at hobject
    split at hobject
    · obtain ⟨old, hold, rfl⟩ := Option.map_eq_some_iff.mp hobject
      exact hchange _ (hc.objects i old hold)
    · exact (hc.mono hmn).objects i object hobject

/-- One holder more. -/
theorem retain (hc : h.CountsWithin n) (v : Value) : (h.retain v).CountsWithin (n + 1) := by
  obtain ⟨named, rfl⟩ | ⟨o, rfl⟩ | hv := isCounted_cases v
  · constructor
    · intro slot entry hslot
      rw [slot?_retain] at hslot
      split at hslot
      · obtain ⟨old, hold, rfl⟩ := Option.map_eq_some_iff.mp hslot
        exact Nat.succ_le_succ (hc.strings slot old hold)
      · exact (hc.mono (Nat.le_succ n)).strings slot entry hslot
    · rw [show (h.retain (.string (.heap named))).objects = h.objects from
        (congrArg Heap.objects (besideStrings_retain h named) :)]
      exact (hc.mono (Nat.le_succ n)).objects
  · exact setObjectRefcount (h := h.countRetain) ⟨hc.strings, hc.objects⟩ (Nat.le_succ n) o
      fun _ => Nat.succ_le_succ
  · rw [retain_of_not_counted h v hv]
    exact hc.mono (Nat.le_succ n)

theorem release (hc : h.CountsWithin n) (v : Value) : (h.release v).CountsWithin n := by
  obtain ⟨named, rfl⟩ | ⟨o, rfl⟩ | hv := isCounted_cases v
  · constructor
    · intro slot entry hslot
      rw [slot?_release] at hslot
      split at hslot
      · obtain ⟨old, hold, hkept⟩ := Option.bind_eq_some_iff.mp hslot
        obtain ⟨-, hkept⟩ := Option.ite_none_left_eq_some.mp hkept
        obtain rfl := Option.some.inj hkept
        exact Nat.le_trans (Nat.sub_le _ 1) (hc.strings slot old hold)
      · exact hc.strings slot entry hslot
    · rw [show (h.release (.string (.heap named))).objects = h.objects from
        (congrArg Heap.objects (besideStrings_release h named) :)]
      exact hc.objects
  · exact setObjectRefcount (h := h.countRelease) ⟨hc.strings, hc.objects⟩ (Nat.le_refl n) o
      fun k hk => Nat.le_trans (Nat.sub_le k 1) hk
  · rwa [release_of_not_counted h v hv]

/-- New strings have no holders. -/
theorem of_leftover {handed : List StringRef} (hc : h.CountsWithin n) (hl : Leftover handed h h')
    (hobjects : h'.objects = h.objects) : h'.CountsWithin n where
  strings slot entry hslot := by
    rcases hl slot entry hslot with hold | ⟨-, hzero⟩
    · exact hc.strings slot entry hold
    · rw [hzero]
      exact Nat.zero_le n
  objects := by rw [hobjects]; exact hc.objects

theorem addObject (hc : h.CountsWithin n) {object : Object} (hobject : object.refcount ≤ n) :
    (h.addObject object).2.CountsWithin n where
  strings := hc.strings
  objects i later hlater := by
    simp only [Heap.addObject, Array.getElem?_push] at hlater
    split at hlater
    · obtain rfl := Option.some.inj hlater
      exact hobject
    · exact hc.objects i later hlater

theorem setObject (hc : h.CountsWithin n) (o : ObjectRef) {object : Object} (hobject : object.refcount ≤ n) :
    (h.setObject o object).CountsWithin n where
  strings := hc.strings
  objects i later hlater := by
    simp only [Heap.setObject, Array.getElem?_setIfInBounds] at hlater
    split at hlater
    · obtain rfl := Option.some.inj (Option.ite_none_right_eq_some.mp hlater).2
      exact hobject
    · exact hc.objects i later hlater

end CountsWithin

/-! ### From an empty heap on -/

/-- No count is above the number of retains so far. -/
def CountsRetains (h : Heap) : Prop := h.CountsWithin h.stats.retained

namespace CountsRetains

theorem new (settings : HeapSettings) : (Heap.new settings).CountsRetains where
  strings _ _ hslot := nomatch hslot
  objects _ _ hobject := nomatch hobject

theorem retain (hc : h.CountsRetains) (v : Value) : (h.retain v).CountsRetains := by
  rw [CountsRetains, retained_retain]
  cases hv : v.isCounted with
  | true => exact CountsWithin.retain hc v
  | false =>
    rw [retain_of_not_counted h v hv]
    exact hc

theorem retainAll (hc : h.CountsRetains) (values : List Value) : (values.foldl Heap.retain h).CountsRetains := by
  induction values generalizing h with
  | nil => exact hc
  | cons v rest ih => exact ih (hc.retain v)

theorem release (hc : h.CountsRetains) (v : Value) : (h.release v).CountsRetains := by
  rw [CountsRetains, retained_release]
  exact CountsWithin.release hc v

theorem allocate (hc : h.CountsRetains) (t : Text) : (h.allocate t).2.CountsRetains := by
  have hbeside := besideStrings_allocate h t
  rw [CountsRetains, show (h.allocate t).2.stats.retained = h.stats.retained from
    (congrArg (·.stats.retained) hbeside :)]
  exact hc.of_leftover (.allocate h t) (congrArg Heap.objects hbeside :)

/-- A new object has no holders. -/
theorem addObject (hc : h.CountsRetains) {object : Object} (hobject : object.refcount = 0) :
    (h.addObject object).2.CountsRetains :=
  CountsWithin.addObject hc (hobject ▸ Nat.zero_le _)

/-- An object that takes the place of another with as many holders. -/
theorem setObject (hc : h.CountsRetains) {o : ObjectRef} {old new : Object} (hold : h.object o = .ok old)
    (hnew : new.refcount = old.refcount) : (h.setObject o new).CountsRetains := by
  have hcount : old.refcount ≤ h.stats.retained := hc.objects _ old (object_eq_ok.mp hold)
  exact CountsWithin.setObject hc o (hnew ▸ hcount)

theorem settles {strings : Nat} {handed : List StringRef} (hc : h.CountsRetains) (hs : h.Sound)
    (hsettles : Settles strings handed h h') : h'.CountsRetains := by
  have hf := hsettles.frame hs
  obtain ⟨k, hretained, -⟩ := hf.balanced
  exact (hc.of_leftover hsettles.leftover hf.objects).mono (by omega)

end CountsRetains

end Heap
end ScriptCore
