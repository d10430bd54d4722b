/-
  Descriptors: the shape of a type without any value of it.

  A descriptor names its children by nodes of some type `N`, and a graph says which descriptor
  stands at each node. So a descriptor is always a finite value, and a graph may have cycles.
  What the elements of a descriptor mean depends on its kind: the properties of a record, the
  cases of an enumeration, the variants of a polymorphic type, one element for a list or a
  wrapper, and the key before the value for a map.
-/
import TypeSchema.Annotation
import TypeSchema.Kind

namespace TypeSchema

/-- A named child. Its annotations belong to the place where the child is used. -/
structure Element (N : Type) where
  name : String
  target : N
  /-- The property may be missing. -/
  optional : Bool := false
  annotations : Annotations := []
deriving DecidableEq, Inhabited

structure Descriptor (N : Type) where
  serialName : String
  kind : Kind
  nullable : Bool := false
  annotations : Annotations := []
  elements : List (Element N) := []
deriving DecidableEq, Inhabited

/-- The descriptor at each node. -/
abbrev Graph (N : Type) := N → Descriptor N

variable {N : Type}

namespace Element

def annotate (e : Element N) (a : Annotation) : Element N :=
  { e with annotations := e.annotations ++ [a] }

def asOptional (e : Element N) : Element N := { e with optional := true }

def child (e : Element N) (g : Graph N) : Descriptor N := g e.target

end Element

namespace Descriptor

/-! ## Making descriptors -/

def ofKind (serialName : String) (kind : Kind) : Descriptor N := { serialName, kind }

def list (serialName : String) (item : N) : Descriptor N :=
  { serialName, kind := .list, elements := [{ name := "0", target := item }] }

def map (serialName : String) (key value : N) : Descriptor N :=
  { serialName, kind := .map,
    elements := [{ name := "0", target := key }, { name := "1", target := value }] }

def wrapper (serialName : String) (value : Element N) : Descriptor N :=
  { serialName, kind := .wrapper, elements := [value] }

def annotate (d : Descriptor N) (a : Annotation) : Descriptor N :=
  { d with annotations := d.annotations ++ [a] }

def addElement (d : Descriptor N) (e : Element N) : Descriptor N :=
  { d with elements := d.elements ++ [e] }

def addProperty (d : Descriptor N) (name : String) (target : N) : Descriptor N :=
  d.addElement { name, target }

def addOptional (d : Descriptor N) (name : String) (target : N) : Descriptor N :=
  d.addElement { name, target, optional := true }

def rename (d : Descriptor N) (serialName : String) : Descriptor N := { d with serialName }

/-! ## Nullability -/

/-- The nullable form, with the mark on its name. A nullable descriptor stays as it is. -/
def intoNullable (d : Descriptor N) : Descriptor N :=
  if d.nullable then d
  else { d with nullable := true, serialName := Name.mark d.serialName }

/-- The form that is not nullable, without the mark on its name. -/
def nonNullable (d : Descriptor N) : Descriptor N :=
  if d.nullable then
    { d with
      nullable := false
      serialName :=
        if Name.isMarked d.serialName then Name.dropLast d.serialName else d.serialName }
  else d

/-- The name that tells a variant from its siblings: the serial name without the mark. -/
def variantName (d : Descriptor N) : String :=
  match Name.beforeMark? d.serialName, d.nullable with
  | some name, true => name
  | _, _ => d.serialName

theorem nonNullable_intoNullable {d : Descriptor N} (h : d.nullable = false) :
    d.intoNullable.nonNullable = d := by
  cases d
  simp_all [intoNullable, nonNullable]

@[simp] theorem intoNullable_intoNullable (d : Descriptor N) :
    d.intoNullable.intoNullable = d.intoNullable := by
  by_cases h : d.nullable <;> simp [intoNullable, h]

/-! ## Reading the elements -/

def isWrapper (d : Descriptor N) : Bool := d.kind = .wrapper

def elementNames (d : Descriptor N) : List String := d.elements.map (·.name)

/-- The item of a list. -/
def listItem (d : Descriptor N) : Except SchemaError (Element N) :=
  match d.elements with
  | [item] => .ok item
  | es => .error (.wrongElements d.serialName "list must have exactly one element" es.length)

/-- The key and the value of a map. -/
def mapEntries (d : Descriptor N) : Except SchemaError (Element N × Element N) :=
  match d.elements with
  | [key, value] => .ok (key, value)
  | es => .error (.wrongElements d.serialName "map must have exactly two elements" es.length)

/-- The value inside a wrapper. -/
def wrapped (d : Descriptor N) : Except SchemaError (Element N) :=
  match d.elements with
  | [value] => .ok value
  | es =>
    .error (.wrongElements d.serialName "inline wrapper must have exactly one element" es.length)

def jsonType (d : Descriptor N) : Except SchemaError JsonType := d.kind.jsonType d.serialName

end Descriptor

end TypeSchema
