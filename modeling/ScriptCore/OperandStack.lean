import ScriptCore.Arithmetic
import ScriptCore.Equality
import ScriptCore.Membership
import ScriptCore.Relational

/-! An operand stack.

Values are retained while they lie on the stack. An operator takes its operands from the top, releases them
when it is done, also when it fails, and pushes its result. An empty stack yields `undefined`. -/
namespace ScriptCore

inductive BinaryOp where
  | add | sub | mul | div | rem
  | less | greater | lessEqual | greaterEqual
  | looseEquals | looseNotEquals | strictEquals | strictNotEquals
  | isIn | instanceOf
deriving DecidableEq

/-- Apply an operator to two values. -/
def BinaryOp.apply (op : BinaryOp) (x y : Value) : HeapM Value :=
  match op with
  | add => ScriptCore.add x y
  | sub => ScriptCore.sub x y
  | mul => ScriptCore.mul x y
  | div => ScriptCore.div x y
  | rem => ScriptCore.rem x y
  | less => return .boolean (← lessThan x y)
  | greater => return .boolean (← greaterThan x y)
  | lessEqual => return .boolean (← ScriptCore.lessEqual x y)
  | greaterEqual => return .boolean (← ScriptCore.greaterEqual x y)
  | looseEquals => return .boolean (← ScriptCore.looseEquals x y)
  | looseNotEquals => return .boolean !(← ScriptCore.looseEquals x y)
  | strictEquals => return .boolean (← HeapM.ask (·.strictEquals x y))
  | strictNotEquals => return .boolean !(← HeapM.ask (·.strictEquals x y))
  | isIn => return .boolean (← ScriptCore.isIn x y)
  | instanceOf => return .boolean (← HeapM.ask (·.instanceOf x y))

structure OperandStack where
  heap : Heap := {}
  /-- The top comes first. -/
  values : List Value := []

namespace OperandStack

def top? (m : OperandStack) : Option Value := m.values.head?

def depth (m : OperandStack) : Nat := m.values.length

/-- The text on top, if there is a string. -/
def topText? (m : OperandStack) : Option Text := do
  let s ← (← m.top?).string?
  (m.heap.text s).toOption

def push (m : OperandStack) (v : Value) : OperandStack := ⟨m.heap.retain v, v :: m.values⟩

/-- Push a new string. -/
def pushString (m : OperandStack) (t : Text) : OperandStack :=
  let (s, heap) := m.heap.allocate t
  push ⟨heap, m.values⟩ (.string s)

/-- Take the top off and release it. -/
def drop (m : OperandStack) : OperandStack :=
  match m.values with
  | [] => m
  | v :: rest => ⟨m.heap.release v, rest⟩

/-- The top and the stack below it, which is no longer released for it. -/
def pop (m : OperandStack) : Value × OperandStack :=
  match m.values with
  | [] => (.undefined, m)
  | v :: rest => (v, { m with values := rest })

/-- Push a result; an error is handed on with the stack as it is. -/
def finish (m : OperandStack) (outcome : Except Error Value) : Except Error Unit × OperandStack :=
  match outcome with
  | .ok v => (.ok (), m.push v)
  | .error e => (.error e, m)

/-- Replace two operands, the right one on top, by the result of an operator. -/
def binary (m : OperandStack) (op : BinaryOp) : Except Error Unit × OperandStack :=
  let (y, m) := m.pop
  let (x, m) := m.pop
  let (outcome, heap) := (op.apply x y).runOn m.heap
  finish { m with heap := (heap.release x).release y } outcome

/-- Replace the top by the name of its type. -/
def typeOf (m : OperandStack) : Except Error Unit × OperandStack :=
  let (v, m) := m.pop
  let name := m.heap.typeName v
  finish { m with heap := m.heap.release v } (name.map fun b => .string (.builtin b))

/-- Release everything, from the top down. -/
def clear (m : OperandStack) : OperandStack := ⟨m.values.foldl Heap.release m.heap, []⟩

end OperandStack
end ScriptCore
