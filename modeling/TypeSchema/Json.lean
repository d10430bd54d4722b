/-
  JSON values, and objects as tables of values.

  A number keeps the spelling class it was written in: an integer and a double of the same size
  are two values, as `1` and `1.0` are two texts. A double that JSON cannot write is stored as
  `null` (`Json.ofDouble`).
-/
import TypeSchema.Double.Basic
import TypeSchema.Table

namespace TypeSchema

inductive Number where
  | int (i : Int)
  | double (x : Double)
deriving DecidableEq, Inhabited

inductive Json where
  | null
  | bool (b : Bool)
  | number (n : Number)
  | string (s : String)
  | array (items : List Json)
  | object (members : Table Json)
deriving Inhabited

/-- The members of a JSON object. -/
abbrev Object := Table Json

namespace Json

def int (i : Int) : Json := .number (.int i)

/-- A double as a JSON number, `null` if there is no such number. -/
def ofDouble (x : Double) : Json :=
  if x.isFinite then .number (.double x) else .null

def strings (ss : List String) : Json := .array (ss.map .string)

def ofEntries (es : List (String × Json)) : Json := .object (Table.ofList es)

end Json

end TypeSchema
