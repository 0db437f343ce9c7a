import Mathlib.Data.Set.Card
import ScriptCore.Arithmetic
import ScriptCore.Membership
import ScriptCore.Proofs.Computations

/-! What a scope recalls.

The body of a scope changes the heap as it likes and its scratch list only by the three operations on it, in
any order, and what it does next may depend on all that it has seen (`ScopeBody`). Whatever it does, the list
holds the strings of the heap whose last operation tracked them, each once: this is kept by each operation
(`Scratch.Records.apply`) and so holds at every moment of a run (`ScopeBody.Reaches.records`). The recalls at
the end are read off the list, `withScratch_recalls`. -/
namespace ScriptCore

open Heap

variable {α β : Type}

/-! ### Operations on a scratch list -/

inductive ScratchOp where
  | track (s : StringRef)
  | trackValue (v : Value)
  | keep (s : StringRef)
deriving DecidableEq

namespace ScratchOp

def apply : ScratchOp → Scratch → Scratch
  | track r, s => s.track r
  | trackValue v, s => s.trackValue v
  | keep r, s => s.keep r

/-- The string that the operation is about. -/
def string? : ScratchOp → Option StringRef
  | track r => some r
  | trackValue v => v.string?
  | keep r => some r

/-- Whether the string is to be recalled after the operation. -/
def tracks : ScratchOp → Bool
  | track _ | trackValue _ => true
  | keep _ => false

end ScratchOp

/-- Whether the last of the operations on a string, the oldest of them in front, leaves it to be recalled. -/
def awaits (ops : List ScratchOp) (r : StringRef) : Bool :=
  (ops.filter (·.string? = some r)).getLast?.any (·.tracks)

/-- The slots that await a recall. -/
def awaiting (ops : List ScratchOp) : Set UInt32 := {slot | awaits ops (.heap slot) = true}

instance (ops : List ScratchOp) (slot : UInt32) : Decidable (slot ∈ awaiting ops) :=
  inferInstanceAs (Decidable (awaits ops (.heap slot) = true))

theorem mem_awaiting_append {ops : List ScratchOp} {op : ScratchOp} {slot : UInt32} :
    slot ∈ awaiting (ops ++ [op]) ↔
      if op.string? = some (.heap slot) then op.tracks = true else slot ∈ awaiting ops := by
  simp only [awaiting, awaits, Set.mem_ofPred_eq, List.filter_append, List.filter_singleton]
  split
  · rename_i hop
    simp [hop]
  · rename_i hop
    simp [hop]

/-- Tracked again after it was kept, and kept after it was tracked. -/
example :
    let ops : List ScratchOp :=
      [.track (.heap 0), .track (.heap 1), .keep (.heap 0), .trackValue (.string (.heap 0)), .keep (.heap 1)]
    0 ∈ awaiting ops ∧ 1 ∉ awaiting ops := by decide

namespace Scratch

theorem nodup_track {s : Scratch} (hs : s.strings.Nodup) (r : StringRef) : (s.track r).strings.Nodup := by
  cases r with
  | builtin b => exact hs
  | heap slot =>
    rw [track]
    split
    · exact hs
    · rename_i hmem
      exact List.concat_eq_append ▸ hs.concat hmem

theorem mem_keep {s : Scratch} {r t : StringRef} : t ∈ (s.keep r).strings ↔ t ∈ s.strings ∧ t ≠ r := by
  simp [keep]

/-- A scratch list holds the strings that await a recall after the operations, each once and none of the table. -/
structure Records (s : Scratch) (ops : List ScratchOp) : Prop where
  nodup : s.strings.Nodup
  mem_heap_iff : ∀ slot, .heap slot ∈ s.strings ↔ slot ∈ awaiting ops
  builtin_not_mem : ∀ b, .builtin b ∉ s.strings

namespace Records

variable {s : Scratch} {ops : List ScratchOp} {op : ScratchOp} {r : StringRef}

theorem empty : Records {} [] where
  nodup := List.nodup_nil
  mem_heap_iff slot := by simp [awaiting, awaits]
  builtin_not_mem b := List.not_mem_nil

theorem track (hs : s.Records ops) (hop : op.string? = some r) (htracks : op.tracks = true) :
    (s.track r).Records (ops ++ [op]) where
  nodup := nodup_track hs.nodup r
  mem_heap_iff slot := by
    simp only [mem_track, hs.mem_heap_iff, mem_awaiting_append, hop, htracks, Option.some.injEq]
    by_cases hr : r = .heap slot
    · simp [hr]
    · simp [hr]
  builtin_not_mem b := by
    cases r with
    | builtin b' => exact hs.builtin_not_mem b
    | heap slot =>
      rw [Scratch.track]
      split
      · exact hs.builtin_not_mem b
      · simpa using hs.builtin_not_mem b

theorem keep (hs : s.Records ops) (hop : op.string? = some r) (hkeeps : op.tracks = false) :
    (s.keep r).Records (ops ++ [op]) where
  nodup := hs.nodup.filter _
  mem_heap_iff slot := by
    simp only [mem_keep, hs.mem_heap_iff, mem_awaiting_append, hop, hkeeps, Option.some.injEq]
    by_cases hr : r = .heap slot
    · simp [hr]
    · simp [hr, Ne.symm hr]
  builtin_not_mem b hmem := hs.builtin_not_mem b (mem_keep.mp hmem).1

theorem skip (hs : s.Records ops) (hop : op.string? = none) : s.Records (ops ++ [op]) where
  nodup := hs.nodup
  mem_heap_iff slot := by
    simp [hs.mem_heap_iff, mem_awaiting_append, hop]
  builtin_not_mem := hs.builtin_not_mem

/-- An operation moves the string that it is about and no other. -/
theorem apply (hs : s.Records ops) (op : ScratchOp) : (op.apply s).Records (ops ++ [op]) := by
  cases op with
  | track r => exact hs.track rfl rfl
  | keep r => exact hs.keep rfl rfl
  | trackValue v =>
    show (s.trackValue v).Records _
    unfold trackValue
    cases hv : v.string? with
    | none => exact hs.skip hv
    | some r => exact hs.track hv rfl

theorem mem_iff (hs : s.Records ops) : r ∈ s.strings ↔ ∃ slot, r = .heap slot ∧ slot ∈ awaiting ops := by
  cases r with
  | builtin b => simp [hs.builtin_not_mem b]
  | heap slot => simp [hs.mem_heap_iff]

/-- The length of the list counts what it holds. -/
theorem length_eq (hs : s.Records ops) : s.length = (awaiting ops).ncard := by
  have hset : StringRef.heap '' awaiting ops = s.strings.toFinset := by
    ext r
    simp only [Set.mem_image, List.coe_toFinset, Set.mem_ofPred_eq, hs.mem_iff]
    exact ⟨fun ⟨slot, hmem, heq⟩ => ⟨slot, heq.symm, hmem⟩, fun ⟨slot, heq, hmem⟩ => ⟨slot, hmem, heq.symm⟩⟩
  rw [← Set.ncard_image_of_injective _ fun _ _ => StringRef.heap.inj, hset, Set.ncard_coe_finset,
    List.toFinset_card_of_nodup hs.nodup, length]

end Records
end Scratch

/-! ### Bodies -/

/-- What a body still has to do: to end with an outcome, or to change the heap, to operate on its scratch list
or to look at that first. What follows a change of the heap may depend on all that was there before it, and so
on anything that the change answers. -/
inductive ScopeBody (α : Type) where
  | finish (outcome : Except Error α)
  | onHeap (change : Heap → Heap) (next : Heap → ScopeBody α)
  | onScratch (op : ScratchOp) (next : ScopeBody α)
  | look (next : Scratch → ScopeBody α)

namespace ScopeBody

def run : ScopeBody α → ScratchM α
  | finish outcome => fun s h => ((outcome, s), h)
  | onHeap change next => fun s h => (next h).run s (change h)
  | onScratch op next => fun s h => next.run (op.apply s) h
  | look next => fun s h => (next s).run s h

/-- The moments of a run: the operations on the scratch list so far, what is still to be done, the list and the
heap. -/
inductive Reaches (b : ScopeBody α) (h : Heap) : List ScratchOp → ScopeBody α → Scratch → Heap → Prop
  | start : Reaches b h [] b {} h
  | onHeap {ops change next s g} : Reaches b h ops (.onHeap change next) s g →
      Reaches b h ops (next g) s (change g)
  | onScratch {ops op next s g} : Reaches b h ops (.onScratch op next) s g →
      Reaches b h (ops ++ [op]) next (op.apply s) g
  | look {ops next s g} : Reaches b h ops (.look next) s g → Reaches b h ops (next s) s g

variable {b rest : ScopeBody α} {h g : Heap} {ops : List ScratchOp} {s : Scratch}

/-- The scratch list is right at every moment. -/
theorem Reaches.records (hr : b.Reaches h ops rest s g) : s.Records ops := by
  induction hr with
  | start => exact .empty
  | onHeap _ ih => exact ih
  | onScratch _ ih => exact ih.apply _
  | look _ ih => exact ih

/-- From every moment the run ends as it does from the start. -/
theorem Reaches.runOn_eq (hr : b.Reaches h ops rest s g) : rest.run.runOn s g = b.run.runOn {} h := by
  induction hr with
  | start => rfl
  | onHeap _ ih => exact ih
  | onScratch _ ih => exact ih
  | look _ ih => exact ih

/-- No body goes on forever. -/
theorem Reaches.exists_finish (hr : b.Reaches h ops rest s g) :
    ∃ ops' outcome s' g', b.Reaches h ops' (.finish outcome) s' g' := by
  induction rest generalizing ops s g with
  | finish outcome => exact ⟨ops, outcome, s, g, hr⟩
  | onHeap change next ih => exact ih g hr.onHeap
  | onScratch op next ih => exact ih hr.onScratch
  | look next ih => exact ih s hr.look

/-! ### Bodies from computations -/

/-- A computation on the heap, which may be a scope itself. -/
def ofHeap (a : HeapM α) : ScopeBody α := .onHeap (fun h => (a.runOn h).2) fun h => .finish (a.runOn h).1

/-- Track a string that was made for a value which was none itself. -/
def trackFresh (v : Value) (r : StringRef) : ScopeBody Unit :=
  if v.isString then .finish (.ok ()) else .onScratch (.track r) (.finish (.ok ()))

/-- A body that goes on with its result. An error ends it. -/
def bind (f : α → ScopeBody β) : ScopeBody α → ScopeBody β
  | finish (.ok x) => f x
  | finish (.error e) => finish (.error e)
  | onHeap change next => onHeap change fun h => bind f (next h)
  | onScratch op next => onScratch op (bind f next)
  | look next => look fun s => bind f (next s)

theorem run_ofHeap (a : HeapM α) : (ofHeap a).run = ScratchM.lift a := rfl

theorem run_trackFresh (v : Value) (r : StringRef) : (trackFresh v r).run = ScratchM.trackFresh v r := by
  unfold trackFresh ScratchM.trackFresh
  split <;> rfl

theorem run_bind (f : α → ScopeBody β) (b : ScopeBody α) : (b.bind f).run = b.run >>= fun x => (f x).run := by
  funext s h
  show _ = (b.run >>= fun x => (f x).run).runOn s h
  induction b generalizing s h with
  | finish outcome => cases outcome <;> rfl
  | onHeap change next ih => exact ih h s (change h)
  | onScratch op next ih => exact ih (op.apply s) h
  | look next ih => exact ih s s h

/-- The scopes of additions and of memberships have such bodies. -/
theorem exists_addPrimitives {left right : Value} (hstring : (left.isString || right.isString) = true) :
    ∃ b : ScopeBody Value, addPrimitives left right = withScratch b.run := by
  refine ⟨(ofHeap (primitiveToString left)).bind fun l => (trackFresh left l).bind fun _ =>
    (ofHeap (primitiveToString right)).bind fun r => (trackFresh right r).bind fun _ =>
      ofHeap (joinStrings l r), ?_⟩
  simp only [run_bind, run_ofHeap, run_trackFresh]
  exact if_pos hstring

theorem exists_isIn (x : Value) (o : ObjectRef) :
    ∃ b : ScopeBody Bool, isIn x (.object o) = withScratch b.run := by
  refine ⟨(ofHeap (toStringRef x)).bind fun key => (trackFresh x key).bind fun _ =>
    ofHeap (HeapM.ask (·.hasProperty o key)), ?_⟩
  simp only [run_bind, run_ofHeap, run_trackFresh]
  rfl

end ScopeBody

/-! ### Recalls -/

/-- What a recall leaves of a string: nothing if it has no holders. -/
def StringSlot.recalled? (entry : StringSlot) : Option StringSlot :=
  if entry.refcount = 0 then none else some entry

theorem slot?_reclaim_ref (h : Heap) (r : StringRef) (slot : UInt32) :
    (h.reclaim r).slot? slot =
      if r = .heap slot then (h.slot? slot).bind StringSlot.recalled? else h.slot? slot := by
  cases r with
  | builtin b => rfl
  | heap named =>
    rw [slot?_reclaim]
    by_cases heq : slot = named
    · subst heq
      rw [if_pos rfl, if_pos rfl]
      rfl
    · rw [if_neg heq, if_neg fun h => heq (StringRef.heap.inj h).symm]

/-- A string that is recalled more than once is left as by one recall. -/
theorem slot?_foldl_reclaim (recalls : List StringRef) (h : Heap) (slot : UInt32) :
    (recalls.foldl reclaim h).slot? slot =
      if .heap slot ∈ recalls then (h.slot? slot).bind StringSlot.recalled? else h.slot? slot := by
  have hagain : ∀ found : Option StringSlot,
      (found.bind StringSlot.recalled?).bind StringSlot.recalled? = found.bind StringSlot.recalled? := by
    rintro (_ | entry)
    · rfl
    · by_cases hcount : entry.refcount = 0 <;> simp [StringSlot.recalled?, hcount]
  induction recalls generalizing h with
  | nil => simp
  | cons r rs ih =>
    rw [List.foldl_cons, ih, slot?_reclaim_ref]
    by_cases hr : r = .heap slot
    · rw [if_pos hr, hagain, if_pos (List.mem_cons.mpr (.inl hr.symm)), ite_self]
    · simp only [if_neg hr, List.mem_cons, Ne.symm hr, false_or]

theorem recalled_foldl_reclaim (recalls : List StringRef) (h : Heap)
    (hheap : ∀ r ∈ recalls, ∃ slot, r = .heap slot) :
    (recalls.foldl reclaim h).stats.recalled = h.stats.recalled + recalls.length := by
  induction recalls generalizing h with
  | nil => rfl
  | cons r rs ih =>
    obtain ⟨slot, rfl⟩ := hheap r List.mem_cons_self
    have hone : (h.reclaim (.heap slot)).stats.recalled = h.stats.recalled + 1 := by
      simp only [reclaim]
      split
      · unfold freeSlot
        split <;> rfl
      · rfl
    rw [List.foldl_cons, ih _ fun r hr => hheap r (List.mem_cons_of_mem _ hr), hone, List.length_cons]
    omega

/-! ### Scopes -/

/-- The scratch list of a scope has the length of what awaits a recall, at every moment. The scope ends, and it
recalls just that, each string once, whatever the outcome; so it frees the strings among them that are live and
without holders. -/
theorem withScratch_recalls (b : ScopeBody α) (h : Heap) :
    (∀ ops rest s g, b.Reaches h ops rest s g → s.length = (awaiting ops).ncard) ∧
      (∃ ops outcome s g, b.Reaches h ops (.finish outcome) s g) ∧
      ∀ ops outcome s g, b.Reaches h ops (.finish outcome) s g → ∃ recalls : List StringRef,
        recalls.Nodup ∧ (∀ r, r ∈ recalls ↔ ∃ slot, r = .heap slot ∧ slot ∈ awaiting ops) ∧
          (withScratch b.run).runOn h = (outcome, recalls.foldl reclaim g) ∧
          (recalls.foldl reclaim g).stats.recalled = g.stats.recalled + (awaiting ops).ncard ∧
          ∀ slot entry, g.slot? slot = some entry → (recalls.foldl reclaim g).slot? slot =
            if slot ∈ awaiting ops ∧ entry.refcount = 0 then none else some entry := by
  refine ⟨fun ops rest s g hr => hr.records.length_eq, ScopeBody.Reaches.start.exists_finish,
    fun ops outcome s g hr => ?_⟩
  have hrecords := hr.records
  refine ⟨s.strings, hrecords.nodup, fun r => hrecords.mem_iff, ?_, ?_, fun slot entry hslot => ?_⟩
  · rw [runOn_withScratch, ← hr.runOn_eq]
    rfl
  · have hheap : ∀ r ∈ s.strings, ∃ slot, r = .heap slot := fun r hmem =>
      (hrecords.mem_iff.mp hmem).imp fun _ h => h.1
    rw [recalled_foldl_reclaim _ _ hheap, ← hrecords.length_eq]
    rfl
  · simp only [slot?_foldl_reclaim, hrecords.mem_heap_iff, hslot, Option.bind_some, StringSlot.recalled?]
    by_cases hmem : slot ∈ awaiting ops <;> simp [hmem]

end ScriptCore
