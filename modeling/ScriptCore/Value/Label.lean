import ScriptCore.Value
import ScriptCore.Numeral.Written
import ScriptCore.Decimal.Shortest

/-! How messages name a value: its kind and its payload, never the contents of the heap. -/
namespace ScriptCore

/-- The hexadecimal numeral of an address. -/
def Address.hex (a : Address) : String := String.ofList (Nat.toDigits 16 a.toNat)

def StringRef.label : StringRef → String
  | .builtin b => s!"Builtin({b.label})"
  | .heap slot => s!"Heap({slot.toNat})"

def Value.label : Value → String
  | .undefined => "Undefined"
  | .null => "Null"
  | .none => "None"
  | .nan => "NaN"
  | .infinity .positive => "Infinity"
  | .infinity .negative => "-Infinity"
  | .boolean true => "Boolean(true)"
  | .boolean false => "Boolean(false)"
  | .int32 n => s!"Int32({int32Text n})"
  | .double d => s!"Double({d.val.shortText})"
  | .string s => s!"String({s.label})"
  | .object o => s!"Object({o.index.toNat})"
  | .environment a => s!"Environment(0x{Address.hex a})"
  | .function a => s!"Function(0x{Address.hex a})"

def ValueType.label : ValueType → String
  | .none => "None"
  | .undefined => "Undefined"
  | .null => "Null"
  | .boolean => "Boolean"
  | .int32 => "Int32"
  | .double => "Double"
  | .string => "String"
  | .object => "Object"
  | .nan => "NaN"
  | .infinity => "Infinity"
  | .environment => "Environment"
  | .function => "Function"

end ScriptCore
