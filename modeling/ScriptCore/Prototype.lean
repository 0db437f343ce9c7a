import ScriptCore.HeapM

/-! Chains of objects.

An object inherits properties and methods from its prototype, that from its own, and so on. Chains are
followed over at most `chainLimit` links, so that a search ends on cyclic chains as well. -/
namespace ScriptCore

/-- The number of links that are followed. -/
def chainLimit : Nat := 10000

def withoutPlus : List Char → List Char
  | '+' :: rest => rest
  | text => text

/-- The word of 32 bits that a text spells, in decimal digits that may have a plus in front. -/
def parseWord? (text : List Char) : Option UInt32 :=
  let digits := withoutPlus text
  if digits.isEmpty || !digits.all Char.isDigit then none
  else
    let n := Decimal.valueOf digits
    if n < 2 ^ 32 then some (UInt32.ofNat n) else none

/-- The index that a key spells: digits without a leading zero, below the greatest word. -/
def arrayIndex? (key : Text) : Option UInt32 :=
  let text := key.display.toList
  if text.isEmpty || (1 < text.length && text.head? == some '0') then none
  else if !text.all Char.isDigit then none
  else (parseWord? text).filter (· != 0xffffffff)

namespace Heap

variable {α : Type}

/-- What the first object on a chain answers that answers a question, following at most `links`
prototype links. -/
def searchChain (h : Heap) (question : Object → Option α) (links : Nat) (o : ObjectRef) :
    Except Error (Option α) := do
  let object ← h.object o
  match question object with
  | some answer => return some answer
  | none =>
    match links with
    | 0 => throw .prototypeChainTooLong
    | links + 1 =>
      match object.prototype? with
      | some p => h.searchChain question links p
      | none => return none

/-- The method of an object, its own or inherited. -/
def findHook (h : Heap) (o : ObjectRef) (m : Method) : Except Error (Option Hook) :=
  h.searchChain (·.hook? m) chainLimit o

/-- The property of an object, its own or inherited. -/
def findProperty (h : Heap) (o : ObjectRef) (key : List UInt16) : Except Error (Option Value) :=
  h.searchChain (·.property? key) chainLimit o

/-- Whether the class of an object gives it a property: a length and indices for strings and arrays, a
length for functions. Only the object itself is looked at. -/
def hasIntrinsicProperty (h : Heap) (o : ObjectRef) (key : Text) : Except Error Bool := do
  let object ← h.object o
  let index? := arrayIndex? key
  match object.payload with
  | .string s =>
    let text ← h.text s
    return key.reads .length || index?.any (·.toNat < text.length)
  | .array => return key.reads .length || index?.any (·.toNat < object.elements.length)
  | .function _ => return key.reads .length
  | _ => return false

/-- Whether an object has a property: stored on its chain, or given by its own class. -/
def hasProperty (h : Heap) (o : ObjectRef) (key : StringRef) : Except Error Bool := do
  let key ← h.text key
  if (← h.findProperty o key.units).isSome then return true
  h.hasIntrinsicProperty o key

/-- Whether an object is met on the chain that begins with the first object. -/
def reaches (h : Heap) (target : ObjectRef) (links : Nat) : Option ObjectRef → Except Error Bool
  | none => return false
  | some o =>
    if o = target then return true
    else match links with
      | 0 => throw .prototypeChainTooLong
      | links + 1 => do h.reaches target links (← h.object o).prototype?

/-- Whether a value inherits from the object that a function has as its property `prototype`. -/
def hasInstance (h : Heap) (function : ObjectRef) (v : Value) : Except Error Bool := do
  let some inheritor := v.object? | return false
  let property ← h.findProperty function (Text.ofBuiltin .prototype).units
  let some target := property.bind Value.object? | throw .prototypeNotObject
  h.reaches target chainLimit (← h.object inheritor).prototype?

/-- The function behind bound functions; at most `links` objects are looked at. -/
def unbind (h : Heap) : Nat → ObjectRef → Except Error ObjectRef
  | 0, _ => throw .boundChainTooLong
  | links + 1, f => do
    match ← h.objectClass f with
    | .function (.bound target) => h.unbind links target
    | _ => return f

end Heap
end ScriptCore
