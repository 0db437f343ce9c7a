import ScriptCore.Conversion

/-! The operators `instanceof` and `in`. -/
namespace ScriptCore

/-- The operator `instanceof`. Bound functions stand for what they are bound to. Nothing is an instance of
a raw function, which has no `prototype`. -/
def Heap.instanceOf (h : Heap) (x y : Value) : Except Error Bool := do
  if !(← h.isCallable y) then throw .notCallable
  let some function := y.object? | return false
  let target ← h.unbind chainLimit function
  h.hasInstance target x

/-- The operator `in`. A key string made for the purpose is recalled. -/
def isIn (x y : Value) : HeapM Bool :=
  match y with
  | .object o =>
    withScratch do
      let key ← .lift (toStringRef x)
      ScratchM.trackFresh x key
      .lift (HeapM.ask (·.hasProperty o key))
  | _ => throw .keyInNonObject

end ScriptCore
