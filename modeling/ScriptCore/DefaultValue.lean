import ScriptCore.Bracket
import ScriptCore.Calendar.Gregorian
import ScriptCore.Prototype

/-! Primitive values of objects.

An object is converted by its methods `valueOf` and `toString`, in the order of the hint, each the nearest
on its chain or else the one that its class gives it. The first that answers with a primitive value
decides. -/
namespace ScriptCore

/-! ### Texts of arrays and dates -/

/-- The text an element contributes to the text of its array. Elements that are absent contribute
nothing; objects are not converted. -/
def Heap.elementText (h : Heap) : Value → Except Error Text
  | .undefined | .null | .none => .ok Text.empty
  | .string s => h.text s
  | .int32 n => .ok (Text.ofString (int32Text n))
  | .double d => .ok (Text.ofString d.val.text)
  | .boolean b => .ok (Text.ofString (if b then "true" else "false"))
  | .nan => .ok (Text.ofString "NaN")
  | .infinity .positive => .ok (Text.ofString "Infinity")
  | .infinity .negative => .ok (Text.ofString "-Infinity")
  | .object _ | .environment _ | .function _ => .ok (Text.ofString "[object Object]")

/-- A text with the texts of the elements from place `i` on behind it, each but the first of all after a
comma. -/
def Heap.joinedFrom (h : Heap) (i : Nat) (out : Text) : List Value → Except Error Text
  | [] => .ok out
  | element :: rest => do
    let out := if 0 < i then out.push 44 else out
    let piece ← h.elementText element
    h.joinedFrom (i + 1) (out.append piece) rest

/-- The text of an array with the given elements. -/
def Heap.joinedText (h : Heap) (elements : List Value) : Except Error Text :=
  h.joinedFrom 0 Text.empty elements

/-- The string of a date object by a clock. -/
def dateToStringBy {Moment : Type} (clock : Calendar.Clock Moment) (o : ObjectRef) : HeapM StringRef := do
  match ← HeapM.ask (·.objectClass o) with
  | .date time =>
    match Calendar.timeTextBy clock time with
    | some text => HeapM.newString (Text.ofString text)
    | none => return .builtin .invalidDate
  | _ => throw .notDate

/-- The string of a date object. -/
def dateToString (o : ObjectRef) : HeapM StringRef := dateToStringBy Calendar.gregorian o

/-! ### Methods -/

/-- The method `valueOf` of a class: the payload of a wrapper or date, else the object itself. -/
def intrinsicValueOf (o : ObjectRef) : HeapM Value := do
  match ← HeapM.ask (·.objectClass o) with
  | .number v => return v
  | .boolean b => return .boolean b
  | .string s => return .string s
  | .date time => return Value.ofDouble time
  | .object | .array | .function _ => return .object o

/-- The method `toString` of a class. A number wrapper answers with its number. -/
def intrinsicToString (o : ObjectRef) : HeapM Value := do
  match ← HeapM.ask (·.objectClass o) with
  | .number v => return v
  | .boolean b => return .string (.builtin (if b then .true else .false))
  | .string s => return .string s
  | .date _ => return .string (← dateToString o)
  | .object => return .string (← HeapM.newString (Text.ofString "[object Object]"))
  | .function _ =>
    return .string (← HeapM.newString (Text.ofString "function () \x7b [native code] \x7d"))
  | .array =>
    let text ← HeapM.ask fun h => do h.joinedText (← h.object o).elements
    return .string (← HeapM.newString text)

def runHook (o : ObjectRef) : Hook → HeapM Value
  | .answer v => return v
  | .freshString text => return .string (← HeapM.newString (Text.ofString text))
  | .receiver => return .object o
  | .throws message => throw (.raised .typeError message)

/-- Run a method of an object. -/
def callMethod (o : ObjectRef) (m : Method) : HeapM Value := do
  match ← HeapM.ask (·.findHook o m) with
  | some hook => runHook o hook
  | none =>
    match m with
    | .valueOf => intrinsicValueOf o
    | .toString => intrinsicToString o

/-- The primitive value of an object. -/
def defaultValue (o : ObjectRef) (hint : Hint) : HeapM Value := do
  HeapM.change (·.logConversion o hint)
  let (first, second) := hint.methods
  let v ← callMethod o first
  if v.isPrimitive then return v
  let v ← callMethod o second
  if v.isPrimitive then return v
  throw .noPrimitive

/-- An answer that is asked for its being primitive, or what comes after it. -/
theorem isPrimitive_of_orElse {first rest : HeapM Value} {h h' : Heap} {p : Value}
    (hrest : ∀ g, rest.runOn g = (.ok p, h') → p.isPrimitive = true)
    (hrun : (first >>= fun v => if v.isPrimitive then pure v else rest).runOn h = (.ok p, h')) :
    p.isPrimitive = true := by
  rw [HeapM.runOn_bind] at hrun
  rcases hfirst : first.runOn h with ⟨e | v, g⟩
  · rw [hfirst] at hrun
    cases hrun
  · rw [hfirst] at hrun
    dsimp only at hrun
    split at hrun
    · rename_i hv
      cases hrun
      exact hv
    · exact hrest g hrun

theorem isPrimitive_of_defaultValue {o : ObjectRef} {hint : Hint} {h h' : Heap} {p : Value}
    (hrun : (defaultValue o hint).runOn h = (.ok p, h')) : p.isPrimitive = true := by
  rw [defaultValue, HeapM.runOn_bind, HeapM.runOn_change] at hrun
  exact isPrimitive_of_orElse (fun _ => isPrimitive_of_orElse fun _ hthrow => by cases hthrow) hrun

end ScriptCore
