/-
  The encodings of the kinds: what a generator does where it is told nothing else.

  An encoding makes the fragment of the descriptor at hand. All of them write the documentation
  that applies, and then the keywords that say which values the type has.
-/
import TypeSchema.Context

namespace TypeSchema

abbrev Strategy (N : Type) := Context N → Build Object

namespace Encoding

variable {N : Type}

/-- The documentation, and the JSON type between the title and the description. -/
def writeHeader (c : Context N) : Write Unit := do
  let _ ← c.annotations.writeText .comment
  let _ ← c.annotations.writeText .title
  c.writeType
  let _ ← c.annotations.writeText .description

/-- The JSON type, and the constraints that bear on it. -/
def primitive (c : Context N) : Build Object := Write.compose .empty do
  writeHeader c
  c.annotations.writeConstraints (← c.descriptor.jsonType)

/-- Like `primitive`, with the bounds of the kind for those that no annotation gives. -/
def boundedPrimitive (c : Context N) : Build Object := do
  let fragment ← primitive c
  let given (t : Bound) : Bool :=
    (c.annotations.bound? t).isSome || (c.annotations.boundDouble? t).isSome
  Write.compose fragment do
    unless given .minimum do
      let _ ← c.writeDefaultMinimum
    unless given .maximum do
      let _ ← c.writeDefaultMaximum
    unless (c.annotations.length? .minLength).isSome do
      let _ ← c.writeDefaultMinLength
    unless (c.annotations.length? .maxLength).isSome do
      let _ ← c.writeDefaultMaxLength

def enumeration (c : Context N) : Build Object := Write.compose .empty do
  let _ ← c.annotations.writeText .comment
  let _ ← c.annotations.writeText .title
  c.writeEnum
  let _ ← c.annotations.writeText .description

def record (c : Context N) : Build Object := Write.compose .empty do
  writeHeader c
  c.writeProperties
  c.writeRequired

def list (c : Context N) : Build Object := Write.compose .empty do
  writeHeader c
  c.writeItems

/-- The key is looked at before anything is written. -/
def map (c : Context N) : Build Object := do
  let value ← c.stringKeyedValue
  Write.compose .empty do
    writeHeader c
    c.writeAdditionalProperties value

def polymorphic (c : Context N) : Build Object := Write.compose .empty do
  c.annotations.writeDocumentation
  c.writeVariants Context.defaultDiscriminator

/-- A contextual type has no shape that could be encoded. -/
def contextual (c : Context N) : Build Object :=
  throw (.schema (.contextualUnsupported c.descriptor.serialName))

/-- A marker carries no data, so its fragment says nothing. -/
def marker (_ : Context N) : Build Object := return .empty

end Encoding

end TypeSchema
