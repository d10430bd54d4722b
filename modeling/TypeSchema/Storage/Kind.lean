/-
  Kinds as JSON.

  A choice without content is stored as its name, and one with content as an object whose only
  member is named for it. A choice without content is also read from such an object, if the
  member is `null`.
-/
import TypeSchema.Kind

namespace TypeSchema

namespace Json

/-- The name of a stored choice, and its content if it has any. -/
def choice? : Json → Option (String × Option Json)
  | string name => some (name, none)
  | object ⟨[(name, content)]⟩ => some (name, some content)
  | _ => none

/-- The name of a stored choice without content. -/
def bareChoice? (j : Json) : Option String :=
  match j.choice? with
  | some (name, none) => some name
  | some (name, some null) => some name
  | _ => none

end Json

/-- Reads one of the names that `name` gives to the members of `all`. -/
def readNamed {α : Type} (all : List α) (name : α → String) (j : Json) : Option α := do
  let s ← j.bareChoice?
  all.find? fun a => name a = s

namespace Primitive

def all : List Primitive :=
  [string, char, boolean, byte, short, int, long, uByte, uShort, uInt, uLong, float, double]

def storedName : Primitive → String
  | string => "string"
  | char => "char"
  | boolean => "boolean"
  | byte => "byte"
  | short => "short"
  | int => "int"
  | long => "long"
  | uByte => "u_byte"
  | uShort => "u_short"
  | uInt => "u_int"
  | uLong => "u_long"
  | float => "float"
  | double => "double"

def toJson (p : Primitive) : Json := .string p.storedName

def ofJson? : Json → Option Primitive := readNamed all storedName

end Primitive

namespace Hierarchy

def all : List Hierarchy := [extensible, sealed]

def storedName : Hierarchy → String
  | extensible => "open"
  | sealed => "sealed"

def toJson (h : Hierarchy) : Json := .string h.storedName

def ofJson? : Json → Option Hierarchy := readNamed all storedName

end Hierarchy

namespace JsonType

def all : List JsonType := [string, integer, number, boolean, array, object, null]

def toJson (t : JsonType) : Json := .string t.name

def ofJson? : Json → Option JsonType := readNamed all name

end JsonType

namespace Kind

/-- The kinds that are stored by their name alone. -/
def bare : List Kind := [enumeration, marker, record, list, map, contextual, wrapper]

def storedName : Kind → String
  | primitive _ => "primitive"
  | polymorphic _ => "polymorphic"
  | k => k.describe

def toJson : Kind → Json
  | primitive p => Json.ofEntries [("primitive", p.toJson)]
  | polymorphic h => Json.ofEntries [("polymorphic", h.toJson)]
  | k => .string k.storedName

def ofJson? (j : Json) : Option Kind :=
  match j.choice? with
  | some ("primitive", some content) => (Primitive.ofJson? content).map primitive
  | some ("polymorphic", some content) => (Hierarchy.ofJson? content).map polymorphic
  | _ => readNamed bare storedName j

end Kind

end TypeSchema
