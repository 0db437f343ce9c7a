import ScriptCore.Conversion

/-! The arithmetic operators.

Addition joins strings when a primitive value of an operand is one and adds numbers otherwise. Before it
goes that way, `addGeneric`, it answers the common cases directly. The other four operators first resolve
each operand to a number, by its class if it is an object, and never make a string. -/
namespace ScriptCore

/-! ### Numbers -/

/-- The value of an integer if it has 32 bits. -/
def int32Of? (n : Int) : Option Value :=
  if -2 ^ 31 ≤ n ∧ n < 2 ^ 31 then some (.int32 (Int32.ofInt n)) else none

/-- A sum of doubles. At the end of the range any step outward is infinite; what is smaller than the
smallest magnitude is a zero, an integer unless it is negative. -/
def addDoubles (x y : Double) : Value :=
  let zero := Double.zero false
  let lowest := Double.largest.neg
  if (Double.largest.numLe x && zero.numLt y) || (zero.numLt x && Double.largest.numLe y) then
    .infinity .positive
  else if (x.numLe lowest && y.numLt zero) || (x.numLt zero && y.numLe lowest) then .infinity .negative
  else
    let sum := x.add y
    if sum.abs.numLt Double.smallest then if sum.isNegative then Value.negativeZero else Value.zero
    else Value.ofDouble sum

def addNumbers (a b : Value) : Value :=
  match a, b with
  | .int32 x, .int32 y =>
    (int32Of? (x.toInt + y.toInt)).getD (Value.ofDouble (a.toDouble.add b.toDouble))
  | .nan, _ | _, .nan => .nan
  | .infinity s, .infinity t => if s = t then a else .nan
  | .infinity _, _ => a
  | _, .infinity _ => b
  | _, _ =>
    match a.number?, b.number? with
    | some x, some y => addDoubles x y
    | _, _ => .nan

def subNumbers (a b : Value) : Value :=
  match a, b with
  | .int32 x, .int32 y =>
    (int32Of? (x.toInt - y.toInt)).getD (Value.ofDouble (a.toDouble.sub b.toDouble))
  | _, _ => Value.ofDouble (a.toDouble.sub b.toDouble)

/-- A product of integers that is zero is negative if a factor is. -/
def mulNumbers (a b : Value) : Value :=
  match a, b with
  | .int32 x, .int32 y =>
    match int32Of? (x.toInt * y.toInt) with
    | some product =>
      if x.toInt * y.toInt = 0 ∧ (x.toInt < 0 ∨ y.toInt < 0) then Value.negativeZero else product
    | none => Value.ofDouble (a.toDouble.mul b.toDouble)
  | _, _ => Value.ofDouble (a.toDouble.mul b.toDouble)

/-- The quotient and the remainder of a division by zero: infinite with the sign of the dividend. -/
def divideByZero (dividend : Double) : Value :=
  if dividend.isNaN || dividend.isZero then .nan else .infinity (Sign.of dividend)

def Value.isZero (v : Value) : Bool := v.number?.any Double.isZero

/-- Integers whose quotient is one of 32 bits stay integers. -/
def divNumbers (a b : Value) : Value :=
  if b.isZero then divideByZero a.toDouble
  else match a, b with
    | .int32 x, .int32 y =>
      if x.toInt = 0 ∧ y.toInt < 0 then Value.negativeZero
      else
        let quotient :=
          if x.toInt.tmod y.toInt = 0 then int32Of? (x.toInt.tdiv y.toInt) else none
        quotient.getD (Value.ofDouble (a.toDouble.div b.toDouble))
    | _, _ => Value.ofDouble (a.toDouble.div b.toDouble)

/-- The remainder has the sign of the dividend, also when it is zero. -/
def remNumbers (a b : Value) : Value :=
  if b.isZero then divideByZero a.toDouble
  else match a, b with
    | .int32 x, .int32 y =>
      let r := x.toInt.tmod y.toInt
      if r = 0 ∧ x.toInt < 0 then Value.negativeZero else .int32 (Int32.ofInt r)
    | _, _ => Value.ofDouble (a.toDouble.rem b.toDouble)

/-! ### Addition -/

/-- A new string of both texts. -/
def joinStrings (left right : StringRef) : HeapM Value := do
  let text ← HeapM.ask fun h => do return (← h.text left).append (← h.text right)
  return .string (← HeapM.newString text)

/-- Add primitive values. Strings made on the way are recalled. -/
def addPrimitives (left right : Value) : HeapM Value :=
  if left.isString || right.isString then
    withScratch do
      let leftString ← .lift (primitiveToString left)
      ScratchM.trackFresh left leftString
      let rightString ← .lift (primitiveToString right)
      ScratchM.trackFresh right rightString
      .lift (joinStrings leftString rightString)
  else do
    let a ← HeapM.ask (·.primitiveToNumber left)
    let b ← HeapM.ask (·.primitiveToNumber right)
    return addNumbers a b

/-- Addition by the primitive values of both operands, in order. -/
def addGeneric (x y : Value) : HeapM Value :=
  withPrimitive x .default fun left =>
    withPrimitive y .default fun right => addPrimitives left right

/-- Add infinity and another value, which stands on the right of it or on the left. -/
def addInfinity (sign : Sign) (other : Value) (otherOnRight : Bool) : HeapM Value :=
  let text := StringRef.builtin (match sign with | .positive => .infinity | .negative => .negInfinity)
  withPrimitive other .default fun primitive =>
    match primitive with
    | .string s => if otherOnRight then joinStrings text s else joinStrings s text
    | primitive => do
      let n ← HeapM.ask (·.primitiveToNumber primitive)
      return addNumbers (.infinity sign) n

/-- The operator `+`. -/
def add (x y : Value) : HeapM Value :=
  match x, y with
  | .int32 _, .int32 _ | .int32 _, .double _ | .double _, .int32 _ | .double _, .double _ =>
    return addNumbers x y
  | .nan, .string s => joinStrings (.builtin .nan) s
  | .string s, .nan => joinStrings s (.builtin .nan)
  | .nan, .object _ | .object _, .nan => addGeneric x y
  | .nan, _ | _, .nan => return .nan
  | .infinity _, .infinity _ => return addNumbers x y
  | .infinity sign, other => addInfinity sign other true
  | other, .infinity sign => addInfinity sign other false
  | .undefined, .undefined | .undefined, .null | .undefined, .int32 _ | .undefined, .double _
  | .null, .undefined | .int32 _, .undefined | .double _, .undefined => return .nan
  | _, _ => addGeneric x y

/-! ### Subtraction, multiplication, division, remainder -/

/-- The number of a string, `nan` if it is no numeral. -/
def Heap.numberOfString (h : Heap) (s : StringRef) : Except Error Value := do
  match (← h.text s).toDouble? with
  | some d => return Value.ofNumber d
  | none => return .nan

/-- The number of a primitive operand. -/
def Heap.resolvePrimitive (h : Heap) : Value → Except Error Value
  | v@(.int32 _) | v@(.double _) | v@(.nan) | v@(.infinity _) => .ok v
  | .boolean b => .ok (.int32 (if b then 1 else 0))
  | .null => .ok (.int32 0)
  | .undefined | .none => .ok .nan
  | .string s => h.numberOfString s
  | v@(.object _) | v@(.environment _) | v@(.function _) => .error (.operandNotPrimitive v)

/-- What an operand resolves to: a value, or nothing if it can be called, which makes the result `nan`.
Only wrappers around something else than a number give a value that is none. -/
def resolve (v : Value) : HeapM (Option Value) :=
  match v with
  | .object o => do
    match ← HeapM.ask (·.objectClass o) with
    | .number n => return some n
    | .boolean b => return some (.int32 (if b then 1 else 0))
    | .string s => return some (← HeapM.ask (·.numberOfString s))
    | .function _ => return none
    | .object | .array | .date _ =>
      return some (← withPrimitive v .number fun primitive => HeapM.ask (·.resolvePrimitive primitive))
  | .function _ => return none
  | .environment _ => throw .environmentOperand
  | v => return some (← HeapM.ask (·.resolvePrimitive v))

theorem Heap.numberOfString_eq (h : Heap) (s : StringRef) :
    h.numberOfString s = h.primitiveToNumber (.string s) := by
  show _ = (do return (← h.text s).toNumber)
  unfold numberOfString
  cases h.text s with
  | error e => rfl
  | ok t =>
    show (match t.toDouble? with | some d => pure (.ofNumber d) | none => pure .nan) = Except.ok t.toNumber
    unfold Text.toNumber
    cases t.toDouble? <;> rfl

/-- The table of operands agrees with the conversion to numbers. -/
theorem Heap.resolvePrimitive_eq (h : Heap) {p : Value} (hp : p.isPrimitive = true) :
    h.resolvePrimitive p = h.primitiveToNumber p := by
  cases p with
  | string s => exact h.numberOfString_eq s
  | object _ | environment _ | function _ => cases hp
  | _ => rfl

theorem resolve_of_isPrimitive {p : Value} (hp : p.isPrimitive = true) :
    resolve p = (do return some (← HeapM.ask (·.primitiveToNumber p))) := by
  have htable : (fun h : Heap => h.resolvePrimitive p) = fun h => h.primitiveToNumber p :=
    funext fun h => h.resolvePrimitive_eq hp
  rw [← htable]
  cases p with
  | object _ | environment _ | function _ => cases hp
  | _ => rfl

/-- An object that is no wrapper and cannot be called resolves to its number. -/
theorem resolve_object (o : ObjectRef) :
    resolve (.object o) = (do
      match ← HeapM.ask (·.objectClass o) with
      | .number n => return some n
      | .boolean b => return some (boolNumber b)
      | .string s => return some (← HeapM.ask (·.primitiveToNumber (.string s)))
      | .function _ => return none
      | .object | .array | .date _ => return some (← toNumber (.object o))) := by
  have hnumber : (withPrimitive (.object o) .number fun primitive => HeapM.ask (·.resolvePrimitive primitive)) =
      toNumber (.object o) :=
    withPrimitive_congr o .number fun _ hp => congrArg HeapM.ask (funext fun h => h.resolvePrimitive_eq hp)
  simp only [resolve, hnumber, Heap.numberOfString_eq]
  rfl

/-- Resolve both operands, the right one only if the left one gives a value, and compute. -/
def onNumbers (compute : Value → Value → Value) (x y : Value) : HeapM Value := do
  let some a ← resolve x | return .nan
  let some b ← resolve y | return .nan
  return compute a b

def sub (x y : Value) : HeapM Value := onNumbers subNumbers x y
def mul (x y : Value) : HeapM Value := onNumbers mulNumbers x y
def div (x y : Value) : HeapM Value := onNumbers divNumbers x y
def rem (x y : Value) : HeapM Value := onNumbers remNumbers x y

end ScriptCore
