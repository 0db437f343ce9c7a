import ScriptCore.Double.Arith
import ScriptCore.Decimal.Shortest

/-! How numbers are compared for equality.

Under the approximate semantics two numbers are equal when their distance, computed in double arithmetic,
is below an epsilon; under the exact semantics when they are the same number. -/
namespace ScriptCore

structure Semantics where
  approximate : Bool := true
  epsilon : Double := Double.smallest
deriving DecidableEq

namespace Semantics

def exact : Semantics := { approximate := false }

/-- An epsilon must be a positive finite number. -/
def isValid (s : Semantics) : Bool := s.epsilon.isFinite && !s.epsilon.numLe (Double.zero false)

/-- What is wrong with an epsilon that is not valid. -/
def complaint (s : Semantics) : String :=
  "invalid value for \x60number_equality_epsilon\x60: must be a positive finite number, got " ++
    s.epsilon.positionalText

def numbersEqual (s : Semantics) (a b : Double) : Bool :=
  if s.approximate then (a.sub b).abs.numLt s.epsilon else a.numEq b

end Semantics

/-- What a heap is built with: room for strings and objects, and the semantics of its operators. -/
structure HeapSettings where
  stringCapacity : Nat := 64
  objectCapacity : Nat := 16
  semantics : Semantics := {}
deriving DecidableEq

end ScriptCore
