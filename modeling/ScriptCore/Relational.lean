import ScriptCore.Conversion

/-! The relational operators.

All four are built on one question, whether a value is less than another, which has a third answer: with
`undefined` or with what is no number, values are incomparable, and then each operator is false. -/
namespace ScriptCore

inductive Relation where
  | less | notLess | incomparable
deriving DecidableEq

namespace Relation

def ofBool (less : Bool) : Relation := if less then .less else .notLess

def ofDoubles (a b : Double) : Relation :=
  if a.isNaN || b.isNaN then incomparable else ofBool (a.numLt b)

/-- The relation of two numbers. -/
def ofNumbers (a b : Value) : Relation := ofDoubles a.toDouble b.toDouble

end Relation

/-- Strings are compared by code units, anything else as numbers. -/
def Heap.comparePrimitives (h : Heap) (x y : Value) : Except Error Relation :=
  match x, y with
  | .string a, .string b => do
    return Relation.ofBool (Text.compare (← h.text a) (← h.text b) == .lt)
  | x, y => do return Relation.ofNumbers (← h.primitiveToNumber x) (← h.primitiveToNumber y)

/-- Whether `x` is less than `y`. With `leftFirst`, `x` is converted before `y`. -/
def relate (x y : Value) (leftFirst : Bool) : HeapM Relation :=
  match x, y with
  | .int32 a, .int32 b => return Relation.ofBool (a < b)
  | x, y =>
    if x.isNumeric && y.isNumeric then return Relation.ofNumbers x y
    else if x = .undefined || y = .undefined then return .incomparable
    else if leftFirst then
      withPrimitive x .number fun px =>
        withPrimitive y .number fun py => HeapM.ask (·.comparePrimitives px py)
    else
      withPrimitive y .number fun py =>
        withPrimitive x .number fun px => HeapM.ask (·.comparePrimitives px py)

/-- The operator `<`. -/
def lessThan (x y : Value) : HeapM Bool := return (← relate x y true) == .less

/-- The operator `>`. -/
def greaterThan (x y : Value) : HeapM Bool := return (← relate y x false) == .less

/-- The operator `<=`. -/
def lessEqual (x y : Value) : HeapM Bool := return (← relate y x false) == .notLess

/-- The operator `>=`. -/
def greaterEqual (x y : Value) : HeapM Bool := return (← relate x y true) == .notLess

end ScriptCore
