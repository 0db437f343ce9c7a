import ScriptCore.HeapM

/-! Filling the heap.

What an object holds as element or property it retains; storing a property over another releases the
other. Methods and prototype links are not counted. -/
namespace ScriptCore

namespace Heap

/-- An array that retains its elements. -/
def newArray (h : Heap) (elements : List Value) : ObjectRef × Heap :=
  (elements.foldl retain h).addObject { payload := .array, elements }

/-- A wrapper that retains its string. -/
def newStringObject (h : Heap) (s : StringRef) : ObjectRef × Heap :=
  (h.retain (.string s)).addObject { payload := .string s }

end Heap

/-- An object of a class, with nothing in it. -/
def newOfClass (payload : ObjectClass) : HeapM ObjectRef := HeapM.act (·.addObject { payload })

def newObject : HeapM ObjectRef := newOfClass .object

def newArray (elements : List Value) : HeapM ObjectRef := HeapM.act (·.newArray elements)

def newDate (time : Double) : HeapM ObjectRef := newOfClass (.date time)

def newBooleanObject (b : Bool) : HeapM ObjectRef := newOfClass (.boolean b)

def newStringObject (s : StringRef) : HeapM ObjectRef := HeapM.act (·.newStringObject s)

/-- Only numbers can be wrapped as numbers. -/
def newNumberObject (v : Value) : HeapM ObjectRef :=
  if v.isNumeric then newOfClass (.number v) else throw .wrappedNonNumber

/-- Replace an object. -/
def updateObject (o : ObjectRef) (f : Object → Object) : HeapM Unit := do
  let object ← HeapM.ask (·.object o)
  HeapM.change (·.setObject o (f object))

/-- Store a property. The new value is retained before the object is looked up, the old one released
after. -/
def setProperty (o : ObjectRef) (key : Text) (v : Value) : HeapM Unit := do
  HeapM.change (·.retain v)
  let object ← HeapM.ask (·.object o)
  HeapM.change (·.setObject o (object.withProperty key.units v))
  match object.property? key.units with
  | some old => HeapM.change (·.release old)
  | none => return ()

def setPrototype (o : ObjectRef) (p : Option ObjectRef) : HeapM Unit :=
  updateObject o fun object => { object with prototype? := p }

/-- Install a method. -/
def setHook (o : ObjectRef) (m : Method) (hook : Hook) : HeapM Unit :=
  updateObject o (·.withHook m hook)

/-- A function and the object that its instances inherit from. -/
def newFunction (entry : Address) : HeapM ObjectRef := do
  let prototype ← newObject
  let function ← newOfClass (.function (.ordinary entry))
  setProperty function (Text.ofBuiltin .prototype) (.object prototype)
  return function

def newBoundFunction (target : ObjectRef) : HeapM ObjectRef := newOfClass (.function (.bound target))

end ScriptCore
