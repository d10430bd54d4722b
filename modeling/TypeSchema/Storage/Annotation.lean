/-
  Annotations as JSON.

  An annotation is stored as an object with its tag under `tag` and what it carries under
  `value`. It is also read from a list of the two. There the tag has to be a bare name, while an
  object may hold it in any form of a choice without content. Integers are read where they fit
  their word, and a double from any number; a double that is not finite is stored as `null`, which
  is no number, so it is not read back.
-/
import TypeSchema.Annotation
import TypeSchema.Storage.Kind

namespace TypeSchema

/-! ## Numbers -/

namespace Json

def string? : Json → Option String
  | string s => some s
  | _ => none

def int? : Json → Option Int
  | number (.int i) => some i
  | _ => none

def word? (j : Json) : Option UInt64 := do
  let i ← j.int?
  if 0 ≤ i ∧ i < UInt64.size then some (UInt64.ofNat i.toNat) else none

def signedWord? (j : Json) : Option Int64 := do
  let i ← j.int?
  if Int64.minValue.toInt ≤ i ∧ i ≤ Int64.maxValue.toInt then some (Int64.ofInt i) else none

/-- A number as a double. An integer is a number of JSON if it fits a word, signed or not. -/
def double? : Json → Option Double
  | number (.int i) =>
    if Int64.minValue.toInt ≤ i ∧ i < UInt64.size then some (.ofInt i) else none
  | number (.double x) => if x.isFinite then some x else none
  | _ => none

end Json

/-! ## Tags -/

inductive Tag where
  | text (t : TextTag)
  | length (t : LengthTag)
  | bound (t : Bound)
  | boundDouble (t : Bound)
  | ref
  | refBySerialName
deriving DecidableEq, Inhabited

def Bound.storedName : Bound → String
  | multipleOf => "multiple_of"
  | minimum => "minimum"
  | maximum => "maximum"
  | exclusiveMinimum => "exclusive_minimum"
  | exclusiveMaximum => "exclusive_maximum"

namespace Tag

def storedName : Tag → String
  | text .title => "title"
  | text .description => "description"
  | text .comment => "comment"
  | text .pattern => "pattern"
  | text .format => "format"
  | length .minLength => "min_length"
  | length .maxLength => "max_length"
  | bound t => t.storedName
  | boundDouble t => t.storedName ++ "_double"
  | ref => "ref"
  | refBySerialName => "ref_with_serial_name"

def all : List Tag :=
  [text .title, text .description, text .comment, text .pattern, text .format,
    length .minLength, length .maxLength,
    bound .multipleOf, bound .minimum, bound .maximum,
    bound .exclusiveMinimum, bound .exclusiveMaximum,
    boundDouble .multipleOf, boundDouble .minimum, boundDouble .maximum,
    boundDouble .exclusiveMinimum, boundDouble .exclusiveMaximum,
    ref, refBySerialName]

def ofName? (s : String) : Option Tag := all.find? fun t => t.storedName = s

end Tag

/-! ## Annotations -/

namespace Annotation

def tag : Annotation → Tag
  | text t _ => .text t
  | length t _ => .length t
  | bound t _ => .bound t
  | boundDouble t _ => .boundDouble t
  | ref _ => .ref
  | refBySerialName => .refBySerialName

def content? : Annotation → Option Json
  | text _ s => some (.string s)
  | length _ n => some (.int n.toNat)
  | bound _ i => some (.int i.toInt)
  | boundDouble _ x => some (.ofDouble x)
  | ref key => some (.string key)
  | refBySerialName => none

/-- The annotation with this tag and this content. -/
def ofContent? : Tag → Option Json → Option Annotation
  | .text t, some j => j.string?.map (text t)
  | .length t, some j => j.word?.map (length t)
  | .bound t, some j => j.signedWord?.map (bound t)
  | .boundDouble t, some j => j.double?.map (boundDouble t)
  | .ref, some j => j.string?.map ref
  | .refBySerialName, none => some refBySerialName
  | .refBySerialName, some .null => some refBySerialName
  | _, _ => none

def toJson (a : Annotation) : Json :=
  let tag := ("tag", Json.string a.tag.storedName)
  match a.content? with
  | some content => Json.ofEntries [tag, ("value", content)]
  | none => Json.ofEntries [tag]

def ofJson? : Json → Option Annotation
  | .object members => do
    let tag ← members.get? "tag"
    ofContent? (← Tag.ofName? (← tag.bareChoice?)) (members.get? "value")
  | .array [.string name, content] => do ofContent? (← Tag.ofName? name) (some content)
  | _ => none

end Annotation

namespace Annotations

def toJson (as : Annotations) : Json := .array (as.map Annotation.toJson)

def ofJson? : Json → Option Annotations
  | .array items => items.mapM Annotation.ofJson?
  | _ => none

end Annotations

end TypeSchema
