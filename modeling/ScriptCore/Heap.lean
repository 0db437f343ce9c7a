import ScriptCore.Error
import ScriptCore.Object
import ScriptCore.Semantics

/-! The heap.

Strings live in slots and count who retains them, starting at none. A string is freed when its last
holder releases it, or when it is recalled before anyone retained it; a freed slot is the first to be
used again. Objects count their holders too but are never freed. The heap counts its own traffic and
logs each conversion of an object, so that balance can be seen from outside.

References may point to nothing. Counting ignores such references, looking one up is an error. -/
namespace ScriptCore

structure StringSlot where
  text : Text
  /-- The number of holders. Machines keep it in a word of 32 bits, for which `Heap.CountsWithin` leaves room. -/
  refcount : Nat
deriving DecidableEq

/-- The traffic since the counters were last set to zero. -/
structure RefStats where
  retained : Nat := 0
  released : Nat := 0
  recalled : Nat := 0
  allocated : Nat := 0
  freed : Nat := 0
deriving DecidableEq

/-- Each retain was followed by a release. -/
def RefStats.isBalanced (s : RefStats) : Bool := s.retained == s.released

/-- Strings allocated and not freed, at least none. -/
def RefStats.outstanding (s : RefStats) : Nat := s.allocated - s.freed

structure Heap where
  strings : Array (Option StringSlot) := #[]
  /-- The empty slots, the one to be used next in front. -/
  freeSlots : List UInt32 := []
  objects : Array Object := #[]
  /-- The objects converted so far and the hints, oldest first. -/
  log : Array (ObjectRef × Hint) := #[]
  stats : RefStats := {}
  semantics : Semantics := {}
deriving DecidableEq

namespace Heap

/-! ### Looking up -/

def slot? (h : Heap) (slot : UInt32) : Option StringSlot := (h.strings[slot.toNat]?).join

/-- The text of a string; the texts of the table are always there. -/
def text (h : Heap) : StringRef → Except Error Text
  | .builtin b => .ok (Text.ofBuiltin b)
  | .heap slot =>
    match h.slot? slot with
    | some entry => .ok entry.text
    | none => .error (.danglingString slot)

def object (h : Heap) (o : ObjectRef) : Except Error Object :=
  match h.objects[o.index.toNat]? with
  | some object => .ok object
  | none => .error (.danglingObject o)

def objectClass (h : Heap) (o : ObjectRef) : Except Error ObjectClass := do
  return (← h.object o).payload

def isLive (h : Heap) : StringRef → Bool
  | .builtin _ => true
  | .heap slot => (h.slot? slot).isSome

/-- How often a string of the heap is retained. -/
def stringRefcount? (h : Heap) : StringRef → Option Nat
  | .builtin _ => none
  | .heap slot => (h.slot? slot).map (·.refcount)

def objectRefcount? (h : Heap) (o : ObjectRef) : Option Nat :=
  (h.objects[o.index.toNat]?).map (·.refcount)

def liveStringCount (h : Heap) : Nat := h.strings.countP (·.isSome)

/-! ### Strings -/

def setSlot (h : Heap) (slot : UInt32) (entry : Option StringSlot) : Heap :=
  { h with strings := h.strings.setIfInBounds slot.toNat entry }

/-- Put a text into the slot freed last, or into a new one. Nobody retains it yet. -/
def allocate (h : Heap) (t : Text) : StringRef × Heap :=
  let entry := some ⟨t, 0⟩
  let h := { h with stats := { h.stats with allocated := h.stats.allocated + 1 } }
  match h.freeSlots with
  | slot :: rest => (.heap slot, { h.setSlot slot entry with freeSlots := rest })
  | [] => (.heap (UInt32.ofNat h.strings.size), { h with strings := h.strings.push entry })

/-- Empty a slot, if it is not empty already. -/
def freeSlot (h : Heap) (slot : UInt32) : Heap :=
  match h.slot? slot with
  | some _ =>
    { h.setSlot slot none with
      freeSlots := slot :: h.freeSlots
      stats := { h.stats with freed := h.stats.freed + 1 } }
  | none => h

def setRefcount (h : Heap) (slot : UInt32) (change : Nat → Nat) : Heap :=
  match h.slot? slot with
  | some entry => h.setSlot slot (some { entry with refcount := change entry.refcount })
  | none => h

def setObjectRefcount (h : Heap) (o : ObjectRef) (change : Nat → Nat) : Heap :=
  { h with
    objects := h.objects.modify o.index.toNat fun object =>
      { object with refcount := change object.refcount } }

/-! ### Counting -/

def countRetain (h : Heap) : Heap :=
  { h with stats := { h.stats with retained := h.stats.retained + 1 } }

def countRelease (h : Heap) : Heap :=
  { h with stats := { h.stats with released := h.stats.released + 1 } }

def countRecall (h : Heap) : Heap :=
  { h with stats := { h.stats with recalled := h.stats.recalled + 1 } }

/-- One holder more. -/
def retain (h : Heap) : Value → Heap
  | .string (.heap slot) => h.countRetain.setRefcount slot (· + 1)
  | .object o => h.countRetain.setObjectRefcount o (· + 1)
  | _ => h

/-- One holder less, at least none. A string without holders is freed. -/
def release (h : Heap) : Value → Heap
  | .string (.heap slot) =>
    let h := h.countRelease.setRefcount slot (· - 1)
    if h.stringRefcount? (.heap slot) = some 0 then h.freeSlot slot else h
  | .object o => h.countRelease.setObjectRefcount o (· - 1)
  | _ => h

/-- Free a string that nobody retains. -/
def reclaim (h : Heap) : StringRef → Heap
  | .builtin _ => h
  | .heap slot =>
    let h := h.countRecall
    if h.stringRefcount? (.heap slot) = some 0 then h.freeSlot slot else h

def resetStats (h : Heap) : Heap := { h with stats := {} }

/-! ### Objects -/

def addObject (h : Heap) (object : Object) : ObjectRef × Heap :=
  (⟨UInt32.ofNat h.objects.size⟩, { h with objects := h.objects.push object })

def setObject (h : Heap) (o : ObjectRef) (object : Object) : Heap :=
  { h with objects := h.objects.setIfInBounds o.index.toNat object }

/-- Note that an object is about to be converted. -/
def logConversion (h : Heap) (o : ObjectRef) (hint : Hint) : Heap :=
  { h with log := h.log.push (o, hint) }

def clearLog (h : Heap) : Heap := { h with log := #[] }

/-- An empty heap with the given settings. -/
def new (settings : HeapSettings) : Heap := { semantics := settings.semantics }

/-! ### What operations leave alone -/

theorem slot?_setSlot (h : Heap) (slot other : UInt32) (entry : Option StringSlot) :
    (h.setSlot slot entry).slot? other =
      if other = slot ∧ slot.toNat < h.strings.size then entry else h.slot? other := by
  simp only [slot?, setSlot, Array.getElem?_setIfInBounds]
  by_cases hs : slot = other
  · subst hs
    by_cases hlt : slot.toNat < h.strings.size <;> simp [hlt]
  · have hne : slot.toNat ≠ other.toNat := fun h => hs (UInt32.toNat_inj.mp h)
    simp [hne, Ne.symm hs]

theorem retain_of_not_counted (h : Heap) (v : Value) (hv : v.isCounted = false) : h.retain v = h := by
  unfold retain
  split <;> simp_all [Value.isCounted]

theorem release_of_not_counted (h : Heap) (v : Value) (hv : v.isCounted = false) : h.release v = h := by
  unfold release
  split <;> simp_all [Value.isCounted]

end Heap
end ScriptCore
