/-
  What an encoding works with: the descriptor at hand, the annotations in effect, and the way
  back into the generator.

  `build` makes the fragment of another descriptor, as for a child, and `dispatch` hands a
  descriptor to the strategy of its kind. The structural writers here add one keyword each,
  built from the elements of the descriptor, and touch the fragment only when all of it is built.
-/
import TypeSchema.Descriptor.Basic
import TypeSchema.Keyword

namespace TypeSchema

variable {N : Type}

/-- The descriptor inside all wrappers. Each wrapper takes one unit of fuel. -/
def Descriptor.innermost (g : Graph N) : Nat → Descriptor N → Except Failure (Descriptor N)
  | 0, d => if d.isWrapper then .error .outOfFuel else .ok d
  | fuel + 1, d =>
    if d.isWrapper then
      match d.wrapped with
      | .ok value => innermost g fuel (value.child g)
      | .error e => .error (.schema e)
    else .ok d

structure Context (N : Type) where
  graph : Graph N
  descriptor : Descriptor N
  /-- Those of the place of use first, then those of the type. -/
  annotations : Annotations
  /-- The number of wrappers that may be looked through. -/
  fuel : Nat
  build : Descriptor N → Annotations → Build Object
  dispatch : Descriptor N → Annotations → Build Object

namespace Context

/-- The fragment of an element's child, under the annotations of the element. -/
def elementFragment (c : Context N) (e : Element N) : Build Object :=
  c.build (e.child c.graph) e.annotations

def writeType (c : Context N) : Write Unit := do
  let t ← c.descriptor.jsonType
  t.write c.descriptor.nullable

/-- The names of all cases, and `null` for a nullable type. -/
def writeEnum (c : Context N) : Write Unit :=
  let null := if c.descriptor.nullable then [.null] else []
  put "enum" (.array (c.descriptor.elementNames.map .string ++ null))

/-- The names of all elements with the fragments of their children, built in order. -/
def propertyFragments (c : Context N) : Build (List (String × Json)) :=
  c.descriptor.elements.mapM fun e => do return (e.name, .object (← c.elementFragment e))

def writeProperties (c : Context N) : Write Unit := do
  let properties ← c.propertyFragments
  put "properties" (Json.ofEntries properties)

/-- The names of the properties that may not be missing, left out where there is none. -/
def writeRequired (c : Context N) : Write Unit :=
  let required := (c.descriptor.elements.filter (!·.optional)).map (·.name)
  unless required.isEmpty do
    put "required" (Json.strings required)

def writeItems (c : Context N) : Write Unit := do
  let item ← c.descriptor.listItem
  let items ← c.elementFragment item
  put "items" (.object items)

/-- The value of a map whose keys are written as JSON strings. -/
def stringKeyedValue (c : Context N) : Build (Element N) := do
  let (key, value) ← c.descriptor.mapEntries
  match (key.child c.graph).innermost c.graph c.fuel with
  | .ok key =>
    if key.kind = .primitive .string then return value
    else throw (.schema (.unsupportedMapKey c.descriptor.serialName key.serialName))
  | .error e => throw e

def writeAdditionalProperties (c : Context N) (value : Element N) : Write Unit := do
  let fragment ← c.elementFragment value
  put "additionalProperties" (.object fragment)

/-! ## Variants -/

/-- The property that tells the variants apart. -/
def defaultDiscriminator : String := "type"

/-- The fragment that wants `name` in the property `discriminator`. -/
def tag (discriminator name : String) : Object :=
  let literal := Table.ofList [("enum", Json.strings [name])]
  Table.ofList [
    ("properties", Json.ofEntries [(discriminator, .object literal)]),
    ("required", Json.strings [discriminator])]

/-- One variant: its own fragment, and its name in the discriminator. -/
def variantFragment (c : Context N) (discriminator : String) (variant : Descriptor N) :
    Build Object := do
  let body ← c.build variant []
  return Table.ofList
    [("allOf", .array [.object body, .object (tag discriminator variant.variantName)])]

def variantFragments (c : Context N) (discriminator : String) : Build (List Object) :=
  c.descriptor.elements.mapM fun e => c.variantFragment discriminator (e.child c.graph)

/-- A choice between the variants, with `null` in front for a nullable type. -/
def writeVariants (c : Context N) (discriminator : String) : Write Unit := do
  if c.descriptor.elements.isEmpty then
    throw (.schema (.noVariants c.descriptor.serialName))
  let null := if c.descriptor.nullable then [nullFragment] else []
  let variants ← c.variantFragments discriminator
  put "anyOf" (.array ((null ++ variants).map .object))

/-! ## Bounds of the kind -/

def writeDefaultMinimum (c : Context N) : Write Bool :=
  putIfPresent Bound.minimum.keyword
    ((c.descriptor.kind.primitive?.bind (·.range?)).map fun range => .number range.1)

def writeDefaultMaximum (c : Context N) : Write Bool :=
  putIfPresent Bound.maximum.keyword
    ((c.descriptor.kind.primitive?.bind (·.range?)).map fun range => .number range.2)

def writeDefaultMinLength (c : Context N) : Write Bool :=
  putIfPresent LengthTag.minLength.keyword
    ((c.descriptor.kind.primitive?.bind (·.length?)).map fun lengths => .int lengths.1)

def writeDefaultMaxLength (c : Context N) : Write Bool :=
  putIfPresent LengthTag.maxLength.keyword
    ((c.descriptor.kind.primitive?.bind (·.length?)).map fun lengths => .int lengths.2)

end Context

end TypeSchema
