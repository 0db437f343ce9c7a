/-! The interned texts.

Ninety-two texts that programs use all the time exist once and for ever: names of types and of
properties, the spellings of special numbers, punctuation and the ten digits. Each has a small number,
its `id`, which is its place in the table. -/
namespace ScriptCore

inductive Builtin where
  | empty | arguments | eval | prototype | constructor | caller | callee | undefined | null | false
  | true | boolean | number | string | object | function | length | source | global | ignoreCase
  | multiline | index | input | lastIndex | nan | infinity | negInfinity | undefinedUpper
  | nullUpper | objectUpper | functionUpper | arrayUpper | argumentsUpper | stringUpper
  | booleanUpper | numberUpper | dateUpper | regExpUpper | error | evalError | rangeError
  | referenceError | syntaxError | typeError | uriError | math | json | value | writable
  | enumerable | configurable | get | set | toString | valueOf | toLocaleString | hasOwnProperty
  | isPrototypeOf | propertyIsEnumerable | apply | call | bind | name | message | toJson | maxValue
  | minValue | positiveInfinity | negativeInfinity | invalidDate | objectObject | leftBracket
  | rightBracket | leftBrace | rightBrace | minus | plus | colon | comma | dot | space | newline
  | digit0 | digit1 | digit2 | digit3 | digit4 | digit5 | digit6 | digit7 | digit8 | digit9
deriving DecidableEq

namespace Builtin

/-- The table, in the order of the ids. -/
def all : List Builtin :=
  [.empty, .arguments, .eval, .prototype, .constructor, .caller, .callee, .undefined, .null,
   .false, .true, .boolean, .number, .string, .object, .function, .length, .source, .global,
   .ignoreCase, .multiline, .index, .input, .lastIndex, .nan, .infinity, .negInfinity,
   .undefinedUpper, .nullUpper, .objectUpper, .functionUpper, .arrayUpper, .argumentsUpper,
   .stringUpper, .booleanUpper, .numberUpper, .dateUpper, .regExpUpper, .error, .evalError,
   .rangeError, .referenceError, .syntaxError, .typeError, .uriError, .math, .json, .value,
   .writable, .enumerable, .configurable, .get, .set, .toString, .valueOf, .toLocaleString,
   .hasOwnProperty, .isPrototypeOf, .propertyIsEnumerable, .apply, .call, .bind, .name, .message,
   .toJson, .maxValue, .minValue, .positiveInfinity, .negativeInfinity, .invalidDate,
   .objectObject, .leftBracket, .rightBracket, .leftBrace, .rightBrace, .minus, .plus, .colon,
   .comma, .dot, .space, .newline, .digit0, .digit1, .digit2, .digit3, .digit4, .digit5, .digit6,
   .digit7, .digit8, .digit9]

/-- The place in the table. -/
def id (b : Builtin) : Nat := b.ctorIdx

def ofId? (n : Nat) : Option Builtin := all[n]?

/-- The name that identifies the entry in messages. -/
def label : Builtin → String
  | .empty => "Empty"
  | .arguments => "Arguments"
  | .eval => "Eval"
  | .prototype => "Prototype"
  | .constructor => "Constructor"
  | .caller => "Caller"
  | .callee => "Callee"
  | .undefined => "Undefined"
  | .null => "Null"
  | .false => "False"
  | .true => "True"
  | .boolean => "Boolean"
  | .number => "Number"
  | .string => "String"
  | .object => "Object"
  | .function => "Function"
  | .length => "Length"
  | .source => "Source"
  | .global => "Global"
  | .ignoreCase => "IgnoreCase"
  | .multiline => "Multiline"
  | .index => "Index"
  | .input => "Input"
  | .lastIndex => "LastIndex"
  | .nan => "NaN"
  | .infinity => "Infinity"
  | .negInfinity => "NegInfinity"
  | .undefinedUpper => "UndefinedUpper"
  | .nullUpper => "NullUpper"
  | .objectUpper => "ObjectUpper"
  | .functionUpper => "FunctionUpper"
  | .arrayUpper => "ArrayUpper"
  | .argumentsUpper => "ArgumentsUpper"
  | .stringUpper => "StringUpper"
  | .booleanUpper => "BooleanUpper"
  | .numberUpper => "NumberUpper"
  | .dateUpper => "DateUpper"
  | .regExpUpper => "RegExpUpper"
  | .error => "Error"
  | .evalError => "EvalError"
  | .rangeError => "RangeError"
  | .referenceError => "ReferenceError"
  | .syntaxError => "SyntaxError"
  | .typeError => "TypeError"
  | .uriError => "UriError"
  | .math => "Math"
  | .json => "Json"
  | .value => "Value"
  | .writable => "Writable"
  | .enumerable => "Enumerable"
  | .configurable => "Configurable"
  | .get => "Get"
  | .set => "Set"
  | .toString => "ToString"
  | .valueOf => "ValueOf"
  | .toLocaleString => "ToLocaleString"
  | .hasOwnProperty => "HasOwnProperty"
  | .isPrototypeOf => "IsPrototypeOf"
  | .propertyIsEnumerable => "PropertyIsEnumerable"
  | .apply => "Apply"
  | .call => "Call"
  | .bind => "Bind"
  | .name => "Name"
  | .message => "Message"
  | .toJson => "ToJson"
  | .maxValue => "MaxValue"
  | .minValue => "MinValue"
  | .positiveInfinity => "PositiveInfinity"
  | .negativeInfinity => "NegativeInfinity"
  | .invalidDate => "InvalidDate"
  | .objectObject => "ObjectObject"
  | .leftBracket => "LeftBracket"
  | .rightBracket => "RightBracket"
  | .leftBrace => "LeftBrace"
  | .rightBrace => "RightBrace"
  | .minus => "Minus"
  | .plus => "Plus"
  | .colon => "Colon"
  | .comma => "Comma"
  | .dot => "Dot"
  | .space => "Space"
  | .newline => "Newline"
  | .digit0 => "Digit0"
  | .digit1 => "Digit1"
  | .digit2 => "Digit2"
  | .digit3 => "Digit3"
  | .digit4 => "Digit4"
  | .digit5 => "Digit5"
  | .digit6 => "Digit6"
  | .digit7 => "Digit7"
  | .digit8 => "Digit8"
  | .digit9 => "Digit9"

/-- The text itself. -/
def text : Builtin → String
  | .empty => ""
  | .arguments => "arguments"
  | .eval => "eval"
  | .prototype => "prototype"
  | .constructor => "constructor"
  | .caller => "caller"
  | .callee => "callee"
  | .undefined => "undefined"
  | .null => "null"
  | .false => "false"
  | .true => "true"
  | .boolean => "boolean"
  | .number => "number"
  | .string => "string"
  | .object => "object"
  | .function => "function"
  | .length => "length"
  | .source => "source"
  | .global => "global"
  | .ignoreCase => "ignoreCase"
  | .multiline => "multiline"
  | .index => "index"
  | .input => "input"
  | .lastIndex => "lastIndex"
  | .nan => "NaN"
  | .infinity => "Infinity"
  | .negInfinity => "-Infinity"
  | .undefinedUpper => "Undefined"
  | .nullUpper => "Null"
  | .objectUpper => "Object"
  | .functionUpper => "Function"
  | .arrayUpper => "Array"
  | .argumentsUpper => "Arguments"
  | .stringUpper => "String"
  | .booleanUpper => "Boolean"
  | .numberUpper => "Number"
  | .dateUpper => "Date"
  | .regExpUpper => "RegExp"
  | .error => "Error"
  | .evalError => "EvalError"
  | .rangeError => "RangeError"
  | .referenceError => "ReferenceError"
  | .syntaxError => "SyntaxError"
  | .typeError => "TypeError"
  | .uriError => "URIError"
  | .math => "Math"
  | .json => "JSON"
  | .value => "value"
  | .writable => "writable"
  | .enumerable => "enumerable"
  | .configurable => "configurable"
  | .get => "get"
  | .set => "set"
  | .toString => "toString"
  | .valueOf => "valueOf"
  | .toLocaleString => "toLocaleString"
  | .hasOwnProperty => "hasOwnProperty"
  | .isPrototypeOf => "isPrototypeOf"
  | .propertyIsEnumerable => "propertyIsEnumerable"
  | .apply => "apply"
  | .call => "call"
  | .bind => "bind"
  | .name => "name"
  | .message => "message"
  | .toJson => "toJSON"
  | .maxValue => "MAX_VALUE"
  | .minValue => "MIN_VALUE"
  | .positiveInfinity => "POSITIVE_INFINITY"
  | .negativeInfinity => "NEGATIVE_INFINITY"
  | .invalidDate => "Invalid Date"
  | .objectObject => "[object Object]"
  | .leftBracket => "["
  | .rightBracket => "]"
  | .leftBrace => "\x7b"
  | .rightBrace => "\x7d"
  | .minus => "-"
  | .plus => "+"
  | .colon => ":"
  | .comma => ","
  | .dot => "."
  | .space => " "
  | .newline => "\n"
  | .digit0 => "0"
  | .digit1 => "1"
  | .digit2 => "2"
  | .digit3 => "3"
  | .digit4 => "4"
  | .digit5 => "5"
  | .digit6 => "6"
  | .digit7 => "7"
  | .digit8 => "8"
  | .digit9 => "9"

/-- The entry with the given text; no two entries have the same. -/
def find? (text : String) : Option Builtin := all.find? fun b => b.text == text

/-- The one-digit text of `0` to `9`. -/
def digit? (d : Nat) : Option Builtin := if d < 10 then ofId? (digit0.id + d) else none

@[simp] theorem ofId?_id (b : Builtin) : ofId? b.id = some b := by
  cases b <;> rfl

end Builtin
end ScriptCore
