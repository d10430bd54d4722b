/-
  The kinds of types, and the JSON type that the values of each are written as.

  Every kind but the wrapper has exactly one JSON type: a wrapper is written as the value inside
  it. Numeric primitives also know the range that their values can have, and a character the
  length of its text.
-/
import TypeSchema.Error
import TypeSchema.Json

namespace TypeSchema

inductive Primitive where
  | string | char | boolean
  | byte | short | int | long
  | uByte | uShort | uInt | uLong
  | float | double
deriving DecidableEq, Inhabited

/-- Whether the variants of a hierarchy are all known. -/
inductive Hierarchy where
  | extensible | sealed
deriving DecidableEq, Inhabited

inductive Kind where
  | primitive (p : Primitive)
  | enumeration
  /-- A type with one value, which carries no data. -/
  | marker
  | record
  | list
  | map
  | polymorphic (h : Hierarchy)
  /-- The shape is only known where the value is written. -/
  | contextual
  /-- One value, written without a trace of the type around it. -/
  | wrapper
deriving DecidableEq, Inhabited

/-- The names that the keyword `type` knows. -/
inductive JsonType where
  | string | integer | number | boolean | array | object | null
deriving DecidableEq, Inhabited

namespace JsonType

def name : JsonType → String
  | string => "string"
  | integer => "integer"
  | number => "number"
  | boolean => "boolean"
  | array => "array"
  | object => "object"
  | null => "null"

def isNumeric (t : JsonType) : Bool := t = integer || t = number

end JsonType

namespace Primitive

def name : Primitive → String
  | string => "String"
  | char => "Char"
  | boolean => "Boolean"
  | byte => "Byte"
  | short => "Short"
  | int => "Int"
  | long => "Long"
  | uByte => "UByte"
  | uShort => "UShort"
  | uInt => "UInt"
  | uLong => "ULong"
  | float => "Float"
  | double => "Double"

/-- A character is written as a text of length one. -/
def jsonType : Primitive → JsonType
  | string | char => .string
  | boolean => .boolean
  | byte | short | int | long | uByte | uShort | uInt | uLong => .integer
  | float | double => .number

/-- The integers of `bits` bits in two's complement. -/
def signedRange (bits : Nat) : Number × Number :=
  let half : Nat := 1 <<< (bits - 1)
  (.int (-half), .int (half - 1))

def unsignedRange (bits : Nat) : Number × Number :=
  let size : Nat := 1 <<< bits
  (.int 0, .int (size - 1))

/-- The least and the greatest number of the type. -/
def range? : Primitive → Option (Number × Number)
  | byte => some (signedRange 8)
  | short => some (signedRange 16)
  | int => some (signedRange 32)
  | long => some (signedRange 64)
  | uByte => some (unsignedRange 8)
  | uShort => some (unsignedRange 16)
  | uInt => some (unsignedRange 32)
  | uLong => some (unsignedRange 64)
  | float => some (.double .leastSingle, .double .greatestSingle)
  | double => some (.double .least, .double .greatest)
  | string | char | boolean => none

/-- The least and the greatest length of the text that a value is written as. -/
def length? : Primitive → Option (Nat × Nat)
  | char => some (1, 1)
  | _ => none

theorem range?_isSome (p : Primitive) : p.range?.isSome = p.jsonType.isNumeric := by
  cases p <;> rfl

end Primitive

namespace Kind

def describe : Kind → String
  | primitive p => "primitive " ++ p.name
  | enumeration => "enum"
  | marker => "object"
  | record => "class"
  | list => "list"
  | map => "map"
  | polymorphic .extensible => "open polymorphic"
  | polymorphic .sealed => "sealed polymorphic"
  | contextual => "contextual"
  | wrapper => "inline"

def primitive? : Kind → Option Primitive
  | primitive p => some p
  | _ => none

/-- The JSON type of the kind. `owner` is the type to blame where there is none. -/
def jsonType (owner : String) : Kind → Except SchemaError JsonType
  | primitive p => .ok p.jsonType
  | enumeration => .ok .string
  | list => .ok .array
  | marker | record | map | polymorphic _ | contextual => .ok .object
  | wrapper => .error (.unsupportedKind owner wrapper.describe)

end Kind

end TypeSchema
