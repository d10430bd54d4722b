/-
  Edges: nodes that hold a descriptor, or a label that stands for one.

  A description is mostly a tree, so an edge can hold its descriptor right away. A label defers
  it, and so describes a type that occurs inside itself. Labels and what they stand for are the
  caller's; `Edge.graph` joins both sorts of edges into one graph.
-/
import TypeSchema.Descriptor.Basic
import TypeSchema.Text.Quoted

namespace TypeSchema

inductive Edge (L : Type) where
  | eager (d : Descriptor (Edge L))
  | deferred (label : L)
deriving Inhabited

variable {L : Type}

/-- The graph of all edges, from the descriptor of each label. -/
def Edge.graph (describe : L → Descriptor (Edge L)) : Graph (Edge L)
  | .eager d => d
  | .deferred l => describe l

/-- What a reader is shown of an edge: the name of its descriptor if that is at hand. -/
def Edge.toText : Edge L → String
  | .eager d => "DescriptorRef(" ++ Text.quote d.serialName ++ ")"
  | .deferred _ => "DescriptorRef(<lazy>)"

namespace Descriptor

/-- An enumeration with one case for each name. Each case is a marker of its own. -/
def enumeration (serialName : String) (cases : List String) : Descriptor (Edge L) :=
  { serialName, kind := .enumeration,
    elements := cases.map fun name =>
      { name, target := .eager (ofKind (serialName ++ "." ++ name) .marker) } }

/-- Adds a variant under its own serial name. -/
def addVariant (d variant : Descriptor (Edge L)) : Descriptor (Edge L) :=
  d.addProperty variant.serialName (.eager variant)

end Descriptor

end TypeSchema
