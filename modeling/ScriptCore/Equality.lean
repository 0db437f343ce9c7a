import ScriptCore.Conversion

/-! The three equalities.

`sameValue` tells zeros of different sign apart and makes what is no number equal to itself; `strictEquals`
does neither and compares numbers by the semantics of the heap; `looseEquals` converts operands of
different kinds until they can be compared. -/
namespace ScriptCore

/-- A negative zero as a positive one. -/
def Value.withoutNegativeZero (v : Value) : Value := if v = negativeZero then positiveZero else v

/-- Nothing counts as `undefined`. -/
def Value.undefinedIfNone : Value → Value
  | none => undefined
  | v => v

namespace Heap

/-- The same value. Strings are the same by their contents, functions by the code that they run. -/
def sameValue (h : Heap) (x y : Value) : Except Error Bool :=
  if x = y then .ok true
  else match x, y with
    | .int32 _, .double _ | .double _, .int32 _ | .double _, .double _ =>
      .ok (x.toDouble.numEq y.toDouble && x.toDouble.isNegative == y.toDouble.isNegative)
    | .string a, .string b => do return (← h.text a).sameUnits (← h.text b)
    | .object a, .object b => do
      match ← h.objectClass a, ← h.objectClass b with
      | .function f, .function g => return f = g
      | _, _ => return false
    | .object o, .function entry | .function entry, .object o => do
      return (← h.objectClass o) = .function (.ordinary entry)
    | _, _ => .ok false

/-- The operator `===`. -/
def strictEquals (h : Heap) (x y : Value) : Except Error Bool :=
  match x.withoutNegativeZero, y.withoutNegativeZero with
  | .nan, _ | _, .nan => .ok false
  | x@(.double _), y@(.int32 _) => .ok (h.semantics.numbersEqual x.toDouble y.toDouble)
  | x@(.int32 _), y@(.double _) => .ok (h.semantics.numbersEqual y.toDouble x.toDouble)
  | .double a, .double b => .ok (h.semantics.numbersEqual a.val b.val)
  | .boolean a, .boolean b => .ok (a == b)
  | .boolean _, _ | _, .boolean _ => .ok false
  | .none, .undefined | .undefined, .none => .ok true
  | x, y => h.sameValue x y

end Heap

/-- Run a comparison on what an object is compared by, retained for its duration. -/
def withUnboxed (v : Value) (compare : Value → HeapM Bool) : HeapM Bool := do
  let primitive ← toPrimitiveUnboxed v
  withTransient primitive (compare primitive)

/-- The operator `==` with at most `fuel` comparisons, each after a conversion of the one before. Strings
and truth values are converted to numbers, objects to primitive values. -/
def looseEqualsWithin : Nat → Value → Value → HeapM Bool
  | 0, _, _ => throw .wrapperCycle
  | fuel + 1, x, y =>
    let x := x.undefinedIfNone
    let y := y.undefinedIfNone
    if x.isNumeric && y.isNumeric then HeapM.ask (·.strictEquals x y)
    else if x.type = y.type then HeapM.ask (·.sameValue x y)
    else match x, y with
      | .null, .undefined | .undefined, .null => return true
      | .object _, .function _ | .function _, .object _ => HeapM.ask (·.sameValue x y)
      | .boolean b, _ => looseEqualsWithin fuel (boolNumber b) y
      | _, .boolean b => looseEqualsWithin fuel x (boolNumber b)
      | .string _, .object _ => withUnboxed y fun primitive => looseEqualsWithin fuel x primitive
      | .object _, .string _ => withUnboxed x fun primitive => looseEqualsWithin fuel primitive y
      | .string _, _ =>
        if y.isNumeric then do
          looseEqualsWithin fuel (← HeapM.ask (·.primitiveToNumber x)) y
        else return false
      | _, .string _ =>
        if x.isNumeric then do
          looseEqualsWithin fuel x (← HeapM.ask (·.primitiveToNumber y))
        else return false
      | _, .object _ =>
        if x.isNumeric then withUnboxed y fun primitive => looseEqualsWithin fuel x primitive
        else return false
      | .object _, _ =>
        if y.isNumeric then withUnboxed x fun primitive => looseEqualsWithin fuel primitive y
        else return false
      | _, _ => return false

/-- The operator `==`. Each object is unwrapped at most once unless wrappers form a cycle, and at most
three more comparisons follow. -/
def looseEquals (x y : Value) : HeapM Bool := do
  looseEqualsWithin ((← get).objects.size + 4) x y

end ScriptCore
