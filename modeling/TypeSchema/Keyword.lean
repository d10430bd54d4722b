/-
  Keywords written from annotations.

  Each writer looks up the first annotation of its tag and writes one keyword, or nothing where
  the tag is missing, and says whether it wrote. That is how an integer bound goes before a
  double one: the double is asked for where no integer was written. A double bound has to be
  finite.
-/
import TypeSchema.Annotation
import TypeSchema.Build
import TypeSchema.Kind

namespace TypeSchema

def TextTag.keyword : TextTag → String
  | title => "title"
  | description => "description"
  | comment => "$comment"
  | pattern => "pattern"
  | format => "format"

def LengthTag.keyword : LengthTag → String
  | minLength => "minLength"
  | maxLength => "maxLength"

def Bound.keyword : Bound → String
  | multipleOf => "multipleOf"
  | minimum => "minimum"
  | maximum => "maximum"
  | exclusiveMinimum => "exclusiveMinimum"
  | exclusiveMaximum => "exclusiveMaximum"

/-- The bounds in the order in which they are written. -/
def Bound.inOrder : List Bound :=
  [minimum, maximum, exclusiveMinimum, exclusiveMaximum, multipleOf]

/-- Writes a value that is there, and says whether it was. -/
def putIfPresent (keyword : String) : Option Json → Write Bool
  | some value => do
    put keyword value
    return true
  | none => return false

/-- The name of a JSON type, or the name and `null`. -/
def JsonType.keywordValue (t : JsonType) (nullable : Bool) : Json :=
  if nullable then Json.strings [t.name, JsonType.null.name] else .string t.name

def JsonType.write (t : JsonType) (nullable : Bool) : Write Unit :=
  put "type" (t.keywordValue nullable)

namespace Annotations

def writeText (as : Annotations) (t : TextTag) : Write Bool :=
  putIfPresent t.keyword ((as.text? t).map .string)

def writeLength (as : Annotations) (t : LengthTag) : Write Bool :=
  putIfPresent t.keyword ((as.length? t).map fun n => .int n.toNat)

def writeBound (as : Annotations) (t : Bound) : Write Bool :=
  putIfPresent t.keyword ((as.bound? t).map fun i => .int i.toInt)

def writeBoundDouble (as : Annotations) (t : Bound) : Write Bool :=
  match as.boundDouble? t with
  | some x =>
    if x.isFinite then putIfPresent t.keyword (some (.number (.double x)))
    else throw (.schema (.nonFiniteBound t.keyword x))
  | none => return false

/-- The texts that a reader of the schema sees. -/
def writeDocumentation (as : Annotations) : Write Unit := do
  let _ ← as.writeText .comment
  let _ ← as.writeText .title
  let _ ← as.writeText .description

def writeStringConstraints (as : Annotations) : Write Unit := do
  let _ ← as.writeText .format
  let _ ← as.writeText .pattern
  let _ ← as.writeLength .minLength
  let _ ← as.writeLength .maxLength

/-- One bound, from the integer annotation if there is one. -/
def writeNumberConstraint (as : Annotations) (t : Bound) : Write Unit := do
  unless ← as.writeBound t do
    let _ ← as.writeBoundDouble t

def writeNumberConstraints (as : Annotations) : Write Unit :=
  Bound.inOrder.forM as.writeNumberConstraint

/-- The constraints that bear on values of one JSON type. -/
def writeConstraints (as : Annotations) (t : JsonType) : Write Unit :=
  if t = .string then as.writeStringConstraints
  else if t.isNumeric then as.writeNumberConstraints
  else return

end Annotations

end TypeSchema
