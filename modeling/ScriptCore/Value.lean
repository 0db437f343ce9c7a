import ScriptCore.Builtin
import ScriptCore.Double.Arith

/-! Values.

A value is one of twelve kinds. Numbers have two representations, 32-bit integers and finite doubles, and
special kinds for infinities and for what is no number, so that equal words are equal values. Strings and
objects are references into the heap; environments and raw functions are addresses that only the engine
makes. `none` stands for a hole or an absent argument. -/
namespace ScriptCore

inductive Sign where
  | positive | negative
deriving DecidableEq

namespace Sign

/-- The sign bit of a double, also of a zero and of what is no number. -/
def of (d : Double) : Sign := if d.isNegative then negative else positive

def flip : Sign → Sign
  | positive => negative
  | negative => positive

def isNegative (s : Sign) : Bool := s = negative

end Sign

/-- A text of the table or the text in a slot of the heap. -/
inductive StringRef where
  | builtin (b : Builtin)
  | heap (slot : UInt32)
deriving DecidableEq

/-- An object by its place in the heap. -/
structure ObjectRef where
  index : UInt32
deriving DecidableEq

/-- An address of the engine, 47 bits wide. -/
abbrev Address := BitVec 47

inductive Value where
  | undefined
  | null
  | none
  | nan
  | infinity (sign : Sign)
  | boolean (b : Bool)
  | int32 (n : Int32)
  | double (d : FiniteDouble)
  | string (s : StringRef)
  | object (o : ObjectRef)
  | environment (address : Address)
  | function (entry : Address)
deriving DecidableEq

/-- The kind of a value without its payload. -/
inductive ValueType where
  | none | undefined | null | boolean | int32 | double | string | object | nan | infinity
  | environment | function
deriving DecidableEq

def ValueType.isNumeric : ValueType → Bool
  | int32 | double | nan | infinity => true
  | _ => false

namespace Value

instance : Inhabited Value := ⟨undefined⟩

/-- The value of any double. -/
def ofDouble (d : Double) : Value :=
  if h : d.isFinite then double ⟨d, h⟩
  else if d.isNaN then nan
  else infinity (Sign.of d)

def zero : Value := int32 0
def positiveZero : Value := ofDouble (Double.zero false)
def negativeZero : Value := ofDouble (Double.zero true)

/-- A string, or `undefined` if there is none. -/
def ofString? (s : Option StringRef) : Value := s.elim undefined string

/-- An object, or `undefined` if there is none. -/
def ofObject? (o : Option ObjectRef) : Value := o.elim undefined object

/-- The number a double stands for, as an integer where that loses nothing. A negative zero stays a
double. -/
def ofNumber (d : Double) : Value :=
  if d.isZero && d.isNegative then negativeZero
  else if d.isWhole then
    match d.integerIn? (-2 ^ 31) (2 ^ 31 - 1) with
    | some n => int32 (Int32.ofInt n)
    | .none => ofDouble d
  else ofDouble d

/-! ### Payloads -/

def type : Value → ValueType
  | undefined => .undefined
  | null => .null
  | none => .none
  | nan => .nan
  | infinity _ => .infinity
  | boolean _ => .boolean
  | int32 _ => .int32
  | double _ => .double
  | string _ => .string
  | object _ => .object
  | environment _ => .environment
  | function _ => .function

def int32? : Value → Option Int32
  | int32 n => some n
  | _ => .none

def double? : Value → Option Double
  | double d => some d.val
  | _ => .none

def boolean? : Value → Option Bool
  | boolean b => some b
  | _ => .none

def string? : Value → Option StringRef
  | string s => some s
  | _ => .none

def object? : Value → Option ObjectRef
  | object o => some o
  | _ => .none

/-- The number as a double, for the four kinds of numbers. -/
def number? : Value → Option Double
  | int32 n => some (Double.ofInt n.toInt)
  | double d => some d.val
  | nan => some Double.nan
  | infinity s => some (Double.infinity s.isNegative)
  | _ => .none

/-- The number as a double; what is no number gives `nan`. -/
def toDouble (v : Value) : Double := v.number?.getD Double.nan

/-! ### Classes of kinds -/

def isNumeric (v : Value) : Bool := v.type.isNumeric

def isString : Value → Bool
  | string _ => true
  | _ => false

def isObject : Value → Bool
  | object _ => true
  | _ => false

/-- One of the three ways to be absent. -/
def isNullish : Value → Bool
  | undefined | null | none => true
  | _ => false

/-- What a program can hold without reference to an object: no object and no engine address. -/
def isPrimitive : Value → Bool
  | object _ | environment _ | function _ => false
  | _ => true

/-- Whether the heap counts the holders of the value. -/
def isCounted : Value → Bool
  | string (.heap _) | object _ => true
  | _ => false

end Value
end ScriptCore
