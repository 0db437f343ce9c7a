import ScriptCore.Heap

/-! Computations on the heap.

A computation ends with a result or an error, and with a heap in either case: what it did before it failed
stays done. `runOn_bind` says how computations follow one another. -/
namespace ScriptCore

/-- A computation that may fail, but never without a heap. -/
abbrev HeapM : Type → Type := ExceptT Error (StateM Heap)

namespace HeapM

variable {α β : Type}

/-- The outcome from a given heap. -/
def runOn (a : HeapM α) (h : Heap) : Except Error α × Heap := a h

/-- A question that leaves the heap as it is. -/
def ask (question : Heap → Except Error α) : HeapM α := fun h => (question h, h)

/-- A change that always succeeds. -/
def change (f : Heap → Heap) : HeapM Unit := fun h => (.ok (), f h)

/-- A change that always succeeds and gives a result. -/
def act (f : Heap → α × Heap) : HeapM α := fun h => (.ok (f h).1, (f h).2)

/-- A new string with the given text. -/
def newString (t : Text) : HeapM StringRef := act (·.allocate t)

/-! ### Runs -/

@[simp] theorem runOn_pure (x : α) (h : Heap) : (pure x : HeapM α).runOn h = (.ok x, h) := rfl

@[simp] theorem runOn_throw (e : Error) (h : Heap) :
    (throw e : HeapM α).runOn h = (.error e, h) := rfl

@[simp] theorem runOn_ask (question : Heap → Except Error α) (h : Heap) :
    (ask question).runOn h = (question h, h) := rfl

@[simp] theorem runOn_change (f : Heap → Heap) (h : Heap) : (change f).runOn h = (.ok (), f h) := rfl

@[simp] theorem runOn_act (f : Heap → α × Heap) (h : Heap) :
    (act f).runOn h = (.ok (f h).1, (f h).2) := rfl

/-- A second computation runs from the heap that the first one leaves, and only if it succeeds. -/
theorem runOn_bind (a : HeapM α) (f : α → HeapM β) (h : Heap) :
    (a >>= f).runOn h =
      match a.runOn h with
      | (.ok x, h) => (f x).runOn h
      | (.error e, h) => (.error e, h) := by
  show (a >>= f) h = _
  simp only [bind, ExceptT.bind, ExceptT.mk, StateT.bind, runOn]
  rcases a h with ⟨_ | _, _⟩ <;> rfl

end HeapM
end ScriptCore
