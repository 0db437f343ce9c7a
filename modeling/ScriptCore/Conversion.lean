import ScriptCore.Build
import ScriptCore.DefaultValue
import ScriptCore.Numeral.Literal

/-! Conversions between kinds of values.

An object is first converted to a primitive value, which is retained while it is converted further. A
string that a conversion makes belongs to the caller, who has to recall it if it is not handed on. -/
namespace ScriptCore

variable {α : Type}

/-! ### To primitive values -/

/-- The primitive value of a value. Dates answer with their string whatever the hint. -/
def toPrimitive (v : Value) (hint : Hint) : HeapM Value :=
  match v with
  | .object o => do
    if (← HeapM.ask (·.objectClass o)).isDate then return .string (← dateToString o)
    let primitive ← defaultValue o hint
    if primitive.isPrimitive then return primitive else throw .defaultNotPrimitive
  | v => return v

/-- The check of the default value always passes. -/
theorem toPrimitive_object (o : ObjectRef) (hint : Hint) :
    toPrimitive (.object o) hint = (do
      if (← HeapM.ask (·.objectClass o)).isDate then return .string (← dateToString o)
      defaultValue o hint) := by
  have hpass : (defaultValue o hint >>= fun primitive =>
      if primitive.isPrimitive then return primitive else throw .defaultNotPrimitive) = defaultValue o hint := by
    funext h
    show (defaultValue o hint >>= _).runOn h = (defaultValue o hint).runOn h
    rw [HeapM.runOn_bind]
    rcases hrun : (defaultValue o hint).runOn h with ⟨e | p, h'⟩
    · rfl
    · simp only [isPrimitive_of_defaultValue hrun, if_true, HeapM.runOn_pure]
  rw [toPrimitive, hpass]

theorem isPrimitive_of_toPrimitive {o : ObjectRef} {hint : Hint} {h h' : Heap} {p : Value}
    (hrun : (toPrimitive (.object o) hint).runOn h = (.ok p, h')) : p.isPrimitive = true := by
  simp only [toPrimitive_object, HeapM.runOn_bind, HeapM.runOn_ask] at hrun
  cases hclass : h.objectClass o with
  | error e =>
    rw [hclass] at hrun
    cases hrun
  | ok payload =>
    simp only [hclass] at hrun
    split at hrun
    · rw [HeapM.runOn_bind] at hrun
      split at hrun
      · cases hrun
        rfl
      · cases hrun
    · exact isPrimitive_of_defaultValue hrun

/-- The primitive value of a value, where wrapped numbers and truth values are taken out of their
wrappers. -/
def toPrimitiveUnboxed (v : Value) : HeapM Value :=
  match v with
  | .object o => do
    match ← HeapM.ask (·.objectClass o) with
    | .number n => return n
    | .boolean b => return .boolean b
    | _ => toPrimitive v .default
  | v => return v

/-- Run a computation on the primitive value of a value, retained if it comes from an object. -/
def withPrimitive (v : Value) (hint : Hint) (body : Value → HeapM α) : HeapM α :=
  match v with
  | .object _ => do
    let primitive ← toPrimitive v hint
    withTransient primitive (body primitive)
  | v => body v

/-- What is done with a primitive value may depend on its being one. -/
theorem withPrimitive_congr (o : ObjectRef) (hint : Hint) {body body' : Value → HeapM α}
    (hbody : ∀ p, p.isPrimitive = true → body p = body' p) :
    withPrimitive (.object o) hint body = withPrimitive (.object o) hint body' := by
  funext h
  show (toPrimitive (.object o) hint >>= fun p => withTransient p (body p)).runOn h =
    (toPrimitive (.object o) hint >>= fun p => withTransient p (body' p)).runOn h
  rw [HeapM.runOn_bind, HeapM.runOn_bind]
  rcases hrun : (toPrimitive (.object o) hint).runOn h with ⟨e | p, h'⟩
  · rfl
  · simp only [hbody p (isPrimitive_of_toPrimitive hrun)]

/-! ### To truth values -/

def Heap.toBoolean (h : Heap) : Value → Except Error Bool
  | .undefined | .null | .none | .nan => .ok false
  | .boolean b => .ok b
  | .string s => do return !(← h.text s).isEmpty
  | .int32 n => .ok (n != 0)
  | .double d => .ok !d.val.isZero
  | .infinity _ | .object _ | .function _ => .ok true
  | v@(.environment _) => .error (.engineValue .toBoolean v)

/-! ### To numbers -/

/-- The number of a text, `nan` if it is no numeral. -/
def Text.toNumber (t : Text) : Value := t.toDouble?.elim .nan Value.ofNumber

/-- One for what is true, zero for what is not. -/
def boolNumber (b : Bool) : Value := .int32 (if b then 1 else 0)

/-- The number of a primitive value. -/
def Heap.primitiveToNumber (h : Heap) : Value → Except Error Value
  | .undefined | .none | .nan => .ok .nan
  | .null => .ok Value.zero
  | .boolean b => .ok (boolNumber b)
  | .string s => do return (← h.text s).toNumber
  | v@(.int32 _) | v@(.double _) | v@(.infinity _) => .ok v
  | v@(.object _) | v@(.environment _) | v@(.function _) => .error (.engineValue .toNumber v)

/-- The number of a value. It is `nan` exactly when the value cannot be converted. -/
def toNumber (v : Value) : HeapM Value :=
  withPrimitive v .number fun primitive => HeapM.ask (·.primitiveToNumber primitive)

def toDouble (v : Value) : HeapM Double := return (← toNumber v).toDouble

/-! ### To integers -/

/-- The integer part of a number; `nan` counts as zero, infinities stay. -/
def toInteger (v : Value) : HeapM Value := do
  match ← toNumber v with
  | .nan => return Value.zero
  | n@(.infinity _) | n@(.int32 _) => return n
  | .double d => return Value.ofNumber d.val.trunc
  | n => throw (.engineValue .toInteger n)

/-- The integer part of a double in the integers modulo `2 ^ 32`, by a remainder of doubles. What is not
finite gives `0`. -/
def Double.wrapped (d : Double) : UInt32 :=
  if d.isFinite then (d.trunc.modulo (Double.ofNat (2 ^ 32))).toUInt32 else 0

def toUInt32 (v : Value) : HeapM UInt32 :=
  match v with
  | .int32 n => return n.toUInt32
  | v => return (← toDouble v).wrapped

def toInt32 (v : Value) : HeapM Int32 :=
  match v with
  | .int32 n => return n
  | v => return (← toUInt32 v).toInt32

def toUInt16 (v : Value) : HeapM UInt16 := return (← toUInt32 v).toUInt16

/-- The integer of a value where it is known to be small: truth values too are answered at once. -/
def toSmallInteger (v : Value) : HeapM Int32 :=
  match v with
  | .int32 n => return n
  | .boolean b => return if b then 1 else 0
  | v => toInt32 v

/-- The integer part of a number or truth value, moved to the nearer end of `[-2 ^ 63, 2 ^ 63)` when it
lies outside, where the cast of its double gives nothing. -/
def Value.toInt64By (cast : Double → Option Int64) : Value → Except Error Int
  | .int32 n => .ok n.toInt
  | .boolean b => .ok (if b then 1 else 0)
  | .double d =>
    .ok <| ((cast d.val.trunc).map Int64.toInt).getD
      (if d.val.numLt (Double.zero false) then -2 ^ 63 else 2 ^ 63 - 1)
  | .nan => .ok 0
  | .infinity .positive => .ok (2 ^ 63 - 1)
  | .infinity .negative => .ok (-2 ^ 63)
  | v => .error (.notInt64 v)

/-- The integer part of a double if it is one of 64 bits. -/
def Double.toInt64? (d : Double) : Option Int64 := (d.integerIn? (-2 ^ 63) (2 ^ 63 - 1)).map Int64.ofInt

def Value.toInt64 : Value → Except Error Int := Value.toInt64By Double.toInt64?

/-! ### To lengths -/

def maxLength : Nat := 2 ^ 53 - 1

/-- The integer part of a double, moved to the nearer end of `[0, 2 ^ 53)` when it lies outside. -/
def Double.toLengthBy (cast : Double → Option UInt64) (d : Double) : Nat :=
  if d.isNaN || d.numLe (Double.zero false) then 0
  else if d.numEq (Double.infinity false) then maxLength
  else (cast d.trunc).elim maxLength fun n => min n.toNat maxLength

def Heap.primitiveToLengthBy (cast : Double → Option UInt64) (h : Heap) : Value → Except Error Nat
  | .int32 n => .ok n.toInt.toNat
  | .double d => .ok (d.val.toLengthBy cast)
  | .infinity .positive => .ok maxLength
  | .infinity .negative | .nan | .undefined | .null | .none => .ok 0
  | .boolean b => .ok (if b then 1 else 0)
  | .string s => do return (← h.text s).toDouble?.elim 0 (Double.toLengthBy cast)
  | v@(.object _) | v@(.environment _) | v@(.function _) => .error (.engineValue .toLength v)

/-- The length that a value stands for, by a cast of doubles to words. -/
def toLengthBy (cast : Double → Option UInt64) (v : Value) : HeapM Nat :=
  withPrimitive v .number fun primitive => HeapM.ask (·.primitiveToLengthBy cast primitive)

/-- The integer part of a double if it is a natural number of 64 bits. -/
def Double.toUInt64? (d : Double) : Option UInt64 :=
  (d.integerIn? 0 (2 ^ 64 - 1)).map fun n => UInt64.ofNat n.toNat

def toLength (v : Value) : HeapM Nat := toLengthBy Double.toUInt64? v

/-! ### To strings -/

/-- The string of a primitive value: one of the table, the value itself, or a new one. -/
def primitiveToString : Value → HeapM StringRef
  | .undefined | .none => return .builtin .undefined
  | .null => return .builtin .null
  | .boolean true => return .builtin .true
  | .boolean false => return .builtin .false
  | .nan => return .builtin .nan
  | .infinity .positive => return .builtin .infinity
  | .infinity .negative => return .builtin .negInfinity
  | .int32 n =>
    if n = 0 then return .builtin .digit0 else HeapM.newString (Text.ofString (int32Text n))
  | .double d =>
    if d.val.isZero then return .builtin .digit0 else HeapM.newString (Text.ofString d.val.text)
  | .string s => return s
  | v@(.object _) | v@(.environment _) | v@(.function _) => throw (.engineValue .toString v)

def toStringRef (v : Value) : HeapM StringRef :=
  match v with
  | .object _ => do
    match ← toPrimitive v .string with
    | .string s => return s
    | primitive => withTransient primitive (primitiveToString primitive)
  | v => primitiveToString v

/-! ### To objects -/

/-- Absent values are no objects and cannot become one. -/
def checkCoercible (v : Value) : Except Error Unit :=
  if v.isNullish then .error (.notCoercible (v = .null)) else .ok ()

def toObject (v : Value) : HeapM ObjectRef :=
  match v with
  | .object o => return o
  | .int32 _ | .double _ | .nan | .infinity _ => newNumberObject v
  | .boolean b => newBooleanObject b
  | .string s => newStringObject s
  | .undefined | .null | .none => throw (.notCoercible (v = .null))
  | .environment _ | .function _ => throw (.engineValue .toObject v)

/-! ### Questions -/

/-- Function objects and raw functions can be called. -/
def Heap.isCallable (h : Heap) : Value → Except Error Bool
  | .function _ => .ok true
  | .object o => do return (← h.objectClass o).isFunction
  | _ => .ok false

/-- The name of the type of a value, as programs see it. -/
def Heap.typeName (h : Heap) : Value → Except Error Builtin
  | .undefined | .none => .ok .undefined
  | .null => .ok .object
  | .boolean _ => .ok .boolean
  | .int32 _ | .double _ | .nan | .infinity _ => .ok .number
  | .string _ => .ok .string
  | .function _ => .ok .function
  | .object o => do return if (← h.objectClass o).isFunction then .function else .object
  | .environment _ => .error .typeofEnvironment

end ScriptCore
