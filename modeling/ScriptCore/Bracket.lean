import ScriptCore.HeapM

/-! Brackets around computations.

`withTransient` retains a value while a computation needs it. `withScratch` gives a computation a scratch list
of strings and recalls what is on the list at the end. Both do their part at the end whether the
computation succeeds or fails, and hand on its outcome. -/
namespace ScriptCore

variable {α : Type}

/-- Run a computation with a value retained. -/
def withTransient (v : Value) (body : HeapM α) : HeapM α := fun h =>
  let (outcome, h) := body.runOn (h.retain v)
  (outcome, h.release v)

theorem withTransient_of_not_counted (v : Value) (body : HeapM α) (hv : v.isCounted = false) :
    withTransient v body = body := by
  funext h
  show ((body (h.retain v)).1, (body (h.retain v)).2.release v) = body h
  rw [Heap.retain_of_not_counted h v hv, Heap.release_of_not_counted _ v hv]
  rfl

/-- Strings of the heap to be recalled at the end of a scope, each once, in the order of tracking. -/
structure Scratch where
  strings : List StringRef := []
deriving DecidableEq

namespace Scratch

/-- Have a string recalled. Texts of the table need no recall. -/
def track (s : Scratch) : StringRef → Scratch
  | .builtin _ => s
  | .heap slot => if .heap slot ∈ s.strings then s else ⟨s.strings ++ [.heap slot]⟩

/-- Have the string recalled that a value may be. -/
def trackValue (s : Scratch) (v : Value) : Scratch := v.string?.elim s s.track

/-- Not to be recalled after all: the string is handed on. -/
def keep (s : Scratch) (string : StringRef) : Scratch := ⟨s.strings.filter (· ≠ string)⟩

def length (s : Scratch) : Nat := s.strings.length

def isEmpty (s : Scratch) : Bool := s.strings.isEmpty

def recallAll (s : Scratch) (h : Heap) : Heap := s.strings.foldl Heap.reclaim h

end Scratch

/-- A computation on the heap with a scratch list. -/
abbrev ScratchM : Type → Type := ExceptT Error (StateT Scratch (StateM Heap))

namespace ScratchM

/-- The outcome, the scratch list and the heap at the end. -/
def runOn (a : ScratchM α) (s : Scratch) (h : Heap) : (Except Error α × Scratch) × Heap := a s h

/-- A computation that leaves the scratch list alone. -/
def lift (a : HeapM α) : ScratchM α := fun s h =>
  let (outcome, h) := a.runOn h
  ((outcome, s), h)

/-- A change of the scratch list. -/
def change (f : Scratch → Scratch) : ScratchM Unit := fun s h => ((.ok (), f s), h)

def track (s : StringRef) : ScratchM Unit := change (·.track s)

/-- Track a string that was made for a value which was none itself. -/
def trackFresh (v : Value) (s : StringRef) : ScratchM Unit :=
  if v.isString then pure () else track s

end ScratchM

/-- Run a computation with an empty scratch list and recall what it leaves there. -/
def withScratch (body : ScratchM α) : HeapM α := fun h =>
  let ((outcome, scratch), h) := body.runOn {} h
  (outcome, scratch.recallAll h)

end ScriptCore
