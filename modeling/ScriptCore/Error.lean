import ScriptCore.Value.Label

/-! Errors.

An error says what went wrong. Most are exceptions that a program can catch; an internal error is a defect
of the engine and fatal: a reference to nothing, a value of the engine where only values of the program
may be, a chain that does not seem to end. -/
namespace ScriptCore

inductive ErrorKind where
  | syntaxError | typeError | referenceError | rangeError | evalError | uriError | internalError
deriving DecidableEq

def ErrorKind.name : ErrorKind → String
  | syntaxError => "SyntaxError"
  | typeError => "TypeError"
  | referenceError => "ReferenceError"
  | rangeError => "RangeError"
  | evalError => "EvalError"
  | uriError => "URIError"
  | internalError => "InternalError"

/-- The conversions and operators that meet values of the engine. -/
inductive Operation where
  | toBoolean | toNumber | toInteger | toString | toObject | toLength
deriving DecidableEq

def Operation.name : Operation → String
  | toBoolean => "ToBoolean"
  | toNumber => "ToNumber"
  | toInteger => "ToInteger"
  | toString => "ToString"
  | toObject => "ToObject"
  | toLength => "ToLength"

inductive Error where
  /-- Raised by a method or by whoever runs a computation, with a message of its own. -/
  | raised (kind : ErrorKind) (message : String)
  /-- `undefined`, `null` or nothing where an object is needed. -/
  | notCoercible (isNull : Bool)
  /-- Neither method of an object gave a primitive value. -/
  | noPrimitive
  | notInt64 (v : Value)
  | notCallable
  | keyInNonObject
  | prototypeNotObject
  | danglingString (slot : UInt32)
  | danglingObject (o : ObjectRef)
  | prototypeChainTooLong
  | boundChainTooLong
  /-- The payload of a number wrapper leads back to the wrapper. -/
  | wrapperCycle
  | engineValue (operation : Operation) (v : Value)
  /-- The conversion of an object to a primitive value gave none. -/
  | defaultNotPrimitive
  /-- An operand was converted to a primitive value and is none. -/
  | operandNotPrimitive (v : Value)
  | environmentOperand
  | typeofEnvironment
  | notDate
  | wrappedNonNumber
deriving DecidableEq

namespace Error

def kind : Error → ErrorKind
  | raised kind _ => kind
  | notCoercible _ | noPrimitive | notInt64 _ | notCallable | keyInNonObject | prototypeNotObject =>
    .typeError
  | danglingString _ | danglingObject _ | prototypeChainTooLong | boundChainTooLong | wrapperCycle
  | engineValue _ _ | defaultNotPrimitive | operandNotPrimitive _ | environmentOperand | typeofEnvironment
  | notDate | wrappedNonNumber => .internalError

def message : Error → String
  | raised _ message => message
  | notCoercible true => "Cannot convert null to object"
  | notCoercible false => "Cannot convert undefined to object"
  | noPrimitive => "Cannot convert object to primitive value"
  | notInt64 v => s!"cannot convert {v.label} to a 64-bit integer"
  | notCallable => "Right-hand side of 'instanceof' is not callable"
  | keyInNonObject => "Cannot use 'in' operator to search for a key in a non-object"
  | prototypeNotObject => "Function has non-object prototype in instanceof check"
  | danglingString slot => s!"dangling string handle {slot.toNat}"
  | danglingObject o => s!"dangling object handle {o.index.toNat}"
  | prototypeChainTooLong => "prototype chain too long"
  | boundChainTooLong => "bound function chain too long"
  | wrapperCycle => "number wrappers form a cycle"
  | engineValue operation v => s!"{operation.name} reached with engine-internal value {v.label}"
  | defaultNotPrimitive => "[[DefaultValue]] returned a non-primitive value"
  | operandNotPrimitive v => s!"arithmetic operand {v.label} is not a primitive"
  | environmentOperand => "environment value reached an arithmetic operator"
  | typeofEnvironment => "typeof applied to an environment value"
  | notDate => "date_to_string on a non-Date object"
  | wrappedNonNumber => "Number wrapper around a non-number"

/-- Kind and message, as they are reported. -/
def report (e : Error) : String := s!"{e.kind.name}: {e.message}"

/-- A defect of the engine, which no program may catch. -/
def isFatal (e : Error) : Bool := e.kind = .internalError

end Error
end ScriptCore
