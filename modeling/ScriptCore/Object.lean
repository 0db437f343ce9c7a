import ScriptCore.Text
import ScriptCore.Value

/-! Objects.

An object has a class with a payload, own properties, elements, a link to the object it inherits from,
and at most two methods of its own that conversions run. What a method does is one of four things. -/
namespace ScriptCore

/-- Which kind of value a conversion of an object would like to have. -/
inductive Hint where
  | default | number | string
deriving DecidableEq

/-- The two methods that turn an object into a primitive value. -/
inductive Method where
  | valueOf | toString
deriving DecidableEq

/-- The methods in the order in which a hint tries them. -/
def Hint.methods : Hint → Method × Method
  | .string => (.toString, .valueOf)
  | .number | .default => (.valueOf, .toString)

/-- What a method does when it is run. -/
inductive Hook where
  | answer (v : Value)
  /-- Puts the text into a new string each time. -/
  | freshString (text : String)
  /-- Answers with the object itself. -/
  | receiver
  | throws (message : String)
deriving DecidableEq

inductive FunctionData where
  | ordinary (entry : Address)
  | bound (target : ObjectRef)
deriving DecidableEq

inductive ObjectClass where
  | object
  | array
  | date (time : Double)
  | function (f : FunctionData)
  | number (v : Value)
  | boolean (b : Bool)
  | string (s : StringRef)
deriving DecidableEq

def ObjectClass.isFunction : ObjectClass → Bool
  | function _ => true
  | _ => false

def ObjectClass.isDate : ObjectClass → Bool
  | date _ => true
  | _ => false

structure Object where
  payload : ObjectClass
  /-- Keys are code units; no key occurs twice. -/
  properties : List (List UInt16 × Value) := []
  elements : List Value := []
  prototype? : Option ObjectRef := none
  valueOf? : Option Hook := none
  toString? : Option Hook := none
  /-- The number of holders, in machines a word like that of a string. -/
  refcount : Nat := 0
deriving DecidableEq

namespace Object

def hook? (o : Object) : Method → Option Hook
  | .valueOf => o.valueOf?
  | .toString => o.toString?

def withHook (o : Object) (m : Method) (hook : Hook) : Object :=
  match m with
  | .valueOf => { o with valueOf? := some hook }
  | .toString => { o with toString? := some hook }

/-- The own property with the given key. -/
def property? (o : Object) (key : List UInt16) : Option Value := o.properties.lookup key

/-- The properties with one of them set. -/
def insertProperty (key : List UInt16) (v : Value) :
    List (List UInt16 × Value) → List (List UInt16 × Value)
  | [] => [(key, v)]
  | p :: rest => if p.1 = key then (key, v) :: rest else p :: insertProperty key v rest

def withProperty (o : Object) (key : List UInt16) (v : Value) : Object :=
  { o with properties := insertProperty key v o.properties }

private theorem lookup_cons_eq (other : List UInt16) (p : List UInt16 × Value)
    (ps : List (List UInt16 × Value)) :
    (p :: ps).lookup other = if other = p.1 then some p.2 else ps.lookup other := by
  obtain ⟨key, v⟩ := p
  by_cases h : other = key
  · simp [h]
  · simp [List.lookup_cons, h, beq_eq_false_iff_ne.mpr h]

theorem lookup_insertProperty (key other : List UInt16) (v : Value) (ps : List (List UInt16 × Value)) :
    (insertProperty key v ps).lookup other = if other = key then some v else ps.lookup other := by
  induction ps with
  | nil => simp [insertProperty, lookup_cons_eq]
  | cons p rest ih =>
    rw [insertProperty, lookup_cons_eq other p rest]
    by_cases hp : p.1 = key
    · by_cases ho : other = key <;> simp [hp, ho, lookup_cons_eq]
    · by_cases ho : other = p.1
      · simp [hp, ho, lookup_cons_eq]
      · simp [hp, ho, lookup_cons_eq, ih]

@[simp] theorem property?_withProperty (o : Object) (key other : List UInt16) (v : Value) :
    (o.withProperty key v).property? other = if other = key then some v else o.property? other :=
  lookup_insertProperty ..

end Object
end ScriptCore
