import ScriptCore.Json.Number
import ScriptCore.Loader

/-! Settings read from JSON.

Settings are an object with known members, or an array of their values in order. What is missing has its
default; unknown members are skipped, whatever they hold. A known member must not occur twice, and every
value must be of the right kind: a truth value, a number, a natural number. -/
namespace ScriptCore

namespace Json

def toBool? : Json → Option Bool
  | bool b => some b
  | _ => none

def toDouble? : Json → Option Double
  | number n => n.toDouble?
  | _ => none

def toNat? : Json → Option Nat
  | number n => n.toNat?
  | _ => none

/-- The values of known members in the order of their names, nothing for those that are missing. -/
def fields? (names : List String) : Json → Option (List (Option Json))
  | array items =>
    if items.length ≤ names.length then
      some (items.map some ++ List.replicate (names.length - items.length) none)
    else none
  | object members => do
    let named ← members.mapM fun (key, value) => return (← Utf16.toString? key, value)
    names.mapM fun name =>
      match named.filter (·.1 = name) with
      | [] => some none
      | [(_, value)] => some (some value)
      | _ => none
  | _ => none

/-- The value of a member if it is there and of the right kind, the default if it is not there. -/
def fieldOr {α : Type} (default : α) (read? : Json → Option α) : Option Json → Option α
  | none => some default
  | some value => read? value

def toSemantics? (document : Json) : Option Semantics := do
  let [approximate, epsilon] ←
    document.fields? ["approximate_number_equality", "number_equality_epsilon"] | none
  let default : Semantics := {}
  return {
    approximate := ← fieldOr default.approximate toBool? approximate
    epsilon := ← fieldOr default.epsilon toDouble? epsilon }

/-- The settings of a heap. Their epsilon is not checked. -/
def toHeapSettings? (document : Json) : Option HeapSettings := do
  let [strings, objects, semantics] ←
    document.fields? ["initial_string_capacity", "initial_object_capacity", "semantics"] | none
  let default : HeapSettings := {}
  return {
    stringCapacity := ← fieldOr default.stringCapacity toNat? strings
    objectCapacity := ← fieldOr default.objectCapacity toNat? objects
    semantics := ← fieldOr default.semantics toSemantics? semantics }

/-- The reader of JSON. -/
def loader : Loader where
  semantics? text := (ofString? text).bind toSemantics?
  heapSettings? text := (ofString? text).bind toHeapSettings?

end Json

def Semantics.ofJson (text : String) : Except SettingsError Semantics := Semantics.load Json.loader text

def HeapSettings.ofJson? (text : String) : Option HeapSettings := Json.loader.heapSettings? text

end ScriptCore
