/-
  Generators: one strategy for each kind, and the recursion that all of them share.

  `Generator.build` looks through wrappers, collects annotations on the way, and replaces a type
  that asks for it by a pointer to its definition. Every other descriptor goes to the strategy of
  its kind. Each step takes one unit of fuel. A finite graph whose cycles all pass through a type
  with a definition of its own, and none through wrappers only, is built in finitely many steps.
-/
import TypeSchema.Encoding

namespace TypeSchema

structure Generator (N : Type) where
  primitive : Strategy N := Encoding.primitive
  enumeration : Strategy N := Encoding.enumeration
  record : Strategy N := Encoding.record
  list : Strategy N := Encoding.list
  map : Strategy N := Encoding.map
  polymorphic : Strategy N := Encoding.polymorphic
  contextual : Strategy N := Encoding.contextual
  marker : Strategy N := Encoding.marker

variable {N : Type}

namespace Descriptor

/-- The key of the definition that stands for this use of the type, if an annotation asks for
one. A wrapper has a definition only if it asks for it itself: a request that reaches it from
outside is meant for the value inside. -/
def requestedKey? (d : Descriptor N) (inherited : Annotations) : Option String :=
  if d.isWrapper && !d.annotations.hasRef then none
  else (inherited ++ d.annotations).refName? d.serialName d.nullable

/-- The child of a wrapper, nullable if the wrapper is. -/
def passNullable (d child : Descriptor N) : Descriptor N :=
  if d.nullable then child.intoNullable else child

end Descriptor

namespace Generator

/-- What a reader is shown of a generator, whose strategies are functions. -/
def toText : String := "SchemaGenerator \x7b .. \x7d"

def strategy? (gen : Generator N) : Kind → Option (Strategy N)
  | .primitive _ => some gen.primitive
  | .enumeration => some gen.enumeration
  | .record => some gen.record
  | .list => some gen.list
  | .map => some gen.map
  | .polymorphic _ => some gen.polymorphic
  | .contextual => some gen.contextual
  | .marker => some gen.marker
  | .wrapper => none

/-- The annotations of one use, written beside the pointer: documentation, and the constraints
that bear on the values of `target`. The definition has those of the type. -/
def writeUseSite (inherited : Annotations) (target : Descriptor N) : Write Unit := do
  inherited.writeDocumentation
  match target.kind with
  | .primitive p => inherited.writeConstraints p.jsonType
  | _ => return

/-- A pointer to `definition` under `key`, with the annotations of this use. -/
def refer (key : String) (nullable : Bool) (definition : Build Object)
    (inherited : Annotations) (target : Except Failure (Descriptor N)) : Build Object := do
  let use ← request key nullable (some definition)
  match target with
  | .ok target => Write.compose use (writeUseSite inherited target)
  | .error e => throw e

mutual

/-- The fragment of a descriptor that is reached under `inherited` annotations. -/
def build (gen : Generator N) (g : Graph N) :
    Nat → Descriptor N → Annotations → Build Object
  | 0, _, _ => throw .outOfFuel
  | fuel + 1, d, inherited =>
    if d.isWrapper then do
      let value ← d.wrapped
      let child := value.child g
      match d.requestedKey? inherited with
      | some key =>
        let own := (d.annotations ++ value.annotations).withoutRefs
        refer key d.nullable (build gen g fuel child own) inherited (child.innermost g fuel)
      | none =>
        build gen g fuel (d.passNullable child)
          (inherited ++ d.annotations ++ value.annotations)
    else
      match d.requestedKey? inherited with
      | some key =>
        let definition := dispatch gen g fuel d.nonNullable d.annotations
        refer key d.nullable definition inherited (.ok d)
      | none => dispatch gen g fuel d (inherited ++ d.annotations)

/-- Hands a descriptor to the strategy of its kind, with `annotations` in effect. -/
def dispatch (gen : Generator N) (g : Graph N) :
    Nat → Descriptor N → Annotations → Build Object
  | 0, _, _ => throw .outOfFuel
  | fuel + 1, d, annotations =>
    match gen.strategy? d.kind with
    | some strategy => strategy {
        graph := g, descriptor := d, annotations, fuel
        build := fun child inherited => build gen g fuel child inherited
        dispatch := fun d annotations => dispatch gen g fuel d annotations }
    | none => throw (.schema (.unsupportedKind d.serialName d.kind.describe))

end

/-- The context in which a descriptor is encoded. -/
def context (gen : Generator N) (g : Graph N) (fuel : Nat) (d : Descriptor N)
    (annotations : Annotations) : Context N where
  graph := g
  descriptor := d
  annotations := annotations
  fuel := fuel
  build := gen.build g fuel
  dispatch := gen.dispatch g fuel

/-- The schema of a descriptor, with its definitions. The `seed` counts as the annotations of the
place where the type is used. -/
def schemaOf (gen : Generator N) (g : Graph N) (fuel : Nat) (d : Descriptor N)
    (seed : Annotations) : Except Failure Object :=
  match gen.build g fuel d seed {} with
  | .ok fragment registry => .ok (registry.attachTo fragment)
  | .error e _ => .error e

end Generator

/-- The schema that the default encodings give. -/
def schemaOf (g : Graph N) (fuel : Nat) (d : Descriptor N) : Except Failure Object :=
  Generator.schemaOf {} g fuel d []

end TypeSchema
