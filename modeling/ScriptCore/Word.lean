import ScriptCore.Value

/-! Values in a single word.

The top sixteen bits of a word are its tag, the other 48 its payload. A tag below `0xfff9` belongs to a
double, whose bits are the whole word. The doubles above are all no numbers, and what is no number has a
word of its own, so the tags from `0xfff9` on are free for the other kinds.

`Word.value` decodes a word and the predicates on words look at its bits alone. -/
namespace ScriptCore

structure Word where
  bits : UInt64
deriving DecidableEq

namespace Word

/-! ### Layout -/

def tag (w : Word) : Nat := w.bits.toNat / 2 ^ 48

def payload (w : Word) : Nat := w.bits.toNat % 2 ^ 48

def tagged (tag payload : Nat) : Word := ⟨UInt64.ofNat (tag * 2 ^ 48 + payload)⟩

def specialTag : Nat := 0xfff9
def infinityTag : Nat := 0xfffa
def booleanTag : Nat := 0xfffb
def int32Tag : Nat := 0xfffc
def stringTag : Nat := 0xfffd
def objectTag : Nat := 0xfffe
def addressTag : Nat := 0xffff

/-- The bit of a string payload that tells a table entry from a heap slot. -/
def builtinBit : Nat := 2 ^ 32

/-- The bit of an address payload that tells a function from an environment. -/
def functionBit : Nat := 2 ^ 47

def undefined : Word := tagged specialTag 0
def null : Word := tagged specialTag 1
def none : Word := tagged specialTag 2
def nan : Word := tagged specialTag 3
def positiveInfinity : Word := tagged infinityTag 0
def negativeInfinity : Word := tagged infinityTag 1

/-! ### Encoding and decoding -/

def ofString : StringRef → Word
  | .builtin b => tagged stringTag (builtinBit + b.id)
  | .heap slot => tagged stringTag slot.toNat

/-- The word of a value. -/
def ofValue : Value → Word
  | .undefined => undefined
  | .null => null
  | .none => none
  | .nan => nan
  | .infinity .positive => positiveInfinity
  | .infinity .negative => negativeInfinity
  | .boolean b => tagged booleanTag (if b then 1 else 0)
  | .int32 n => tagged int32Tag n.toUInt32.toNat
  | .double d => ⟨d.val.bits⟩
  | .string s => ofString s
  | .object o => tagged objectTag o.index.toNat
  | .environment address => tagged addressTag address.toNat
  | .function entry => tagged addressTag (functionBit + entry.toNat)

/-- The word of any double: infinities and what is no number have words of their own. -/
def ofDouble (d : Double) : Word :=
  if d.isNaN then nan
  else if d.isInfinite then if d.isNegative then negativeInfinity else positiveInfinity
  else ⟨d.bits⟩

def stringOfPayload (payload : Nat) : StringRef :=
  if payload / builtinBit % 2 = 1 then .builtin ((Builtin.ofId? (payload % 2 ^ 16)).getD .empty)
  else .heap (UInt32.ofNat payload)

def specialOfPayload : Nat → Value
  | 0 => .undefined
  | 1 => .null
  | 2 => .none
  | _ => .nan

/-- The value that a word encodes. -/
def value (w : Word) : Value :=
  if w.tag < specialTag then Value.ofDouble ⟨w.bits⟩
  else if w.tag = specialTag then specialOfPayload w.payload
  else if w.tag = infinityTag then .infinity (if w.payload = 0 then .positive else .negative)
  else if w.tag = booleanTag then .boolean (w.payload != 0)
  else if w.tag = int32Tag then .int32 (UInt32.ofNat w.payload).toInt32
  else if w.tag = stringTag then .string (stringOfPayload w.payload)
  else if w.tag = objectTag then .object ⟨UInt32.ofNat w.payload⟩
  else if functionBit ≤ w.payload then .function (BitVec.ofNat 47 w.payload)
  else .environment (BitVec.ofNat 47 w.payload)

/-! ### Predicates on the bits -/

def isInt32 (w : Word) : Bool := w.tag = int32Tag
def isDouble (w : Word) : Bool := w.tag < specialTag
def isString (w : Word) : Bool := w.tag = stringTag
def isObject (w : Word) : Bool := w.tag = objectTag
def isNaN (w : Word) : Bool := w = nan
def isInfinity (w : Word) : Bool := w.tag = infinityTag
def isPositiveInfinity (w : Word) : Bool := w = positiveInfinity
def isNegativeInfinity (w : Word) : Bool := w = negativeInfinity
def isPositiveZero (w : Word) : Bool := w.bits = 0
def isNegativeZero (w : Word) : Bool := w.bits = 0x8000000000000000
def isBoolean (w : Word) : Bool := w.tag = booleanTag
def isNull (w : Word) : Bool := w = null
def isUndefined (w : Word) : Bool := w = undefined
def isNone (w : Word) : Bool := w = none
def isNumeric (w : Word) : Bool := w.isInt32 || w.isDouble || w.isNaN || w.isInfinity
def isNullish (w : Word) : Bool := w.isNull || w.isUndefined || w.isNone
def isEnvironment (w : Word) : Bool := w.tag = addressTag && w.payload < functionBit
def isFunction (w : Word) : Bool := w.tag = addressTag && functionBit ≤ w.payload
def isPrimitive (w : Word) : Bool := !w.isObject && w.tag != addressTag

/-- Whether the heap counts the holders of the value. -/
def isCounted (w : Word) : Bool :=
  (w.isString && w.payload / builtinBit % 2 = 0) || w.isObject

end Word
end ScriptCore
