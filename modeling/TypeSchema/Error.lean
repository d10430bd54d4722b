/-
  What can go wrong while a schema is made, one constructor per cause.

  `SchemaError.message` is the only place where the causes get their wording.
-/
import TypeSchema.Double.Decimal

namespace TypeSchema

inductive SchemaError where
  /-- A map whose keys are not written as JSON strings. -/
  | unsupportedMapKey (map key : String)
  /-- The kind has no JSON counterpart in the place where it stands. -/
  | unsupportedKind (serialName kind : String)
  /-- The shape of a contextual descriptor is not known to the default encoding. -/
  | contextualUnsupported (serialName : String)
  | noVariants (serialName : String)
  /-- A key was asked for that is not registered, and nothing says how to build it. -/
  | missingRefBuilder (key : String)
  /-- The elements are not those that the kind calls for. -/
  | malformedDescriptor (serialName reason : String)
  /-- JSON has no infinite numbers and no NaN. -/
  | nonFiniteBound (keyword : String) (value : Double)
deriving DecidableEq, Inhabited

namespace SchemaError

def message : SchemaError → String
  | unsupportedMapKey map key =>
    "unsupported key type `" ++ key ++ "` for map `" ++ map ++ "`: map keys must be strings"
  | unsupportedKind name kind =>
    "unsupported kind `" ++ kind ++ "` for descriptor `" ++ name ++ "`"
  | contextualUnsupported name =>
    "contextual descriptor `" ++ name ++ "` requires a custom encoding strategy"
  | noVariants name => "polymorphic descriptor `" ++ name ++ "` has no concrete variants"
  | missingRefBuilder key => "no builder supplied for unregistered reference `" ++ key ++ "`"
  | malformedDescriptor name reason => "malformed descriptor `" ++ name ++ "`: " ++ reason
  | nonFiniteBound keyword value =>
    "`" ++ keyword ++ "` must be a finite number, got " ++ value.toText

/-- `shape` says which elements the kind calls for, and `found` how many there are. -/
def wrongElements (serialName shape : String) (found : Nat) : SchemaError :=
  .malformedDescriptor serialName (shape ++ ", found " ++ toString found)

end SchemaError

/-- Why a build gave no fragment. A graph with a cycle that no reference cuts has no schema, and
building one ends when the fuel does. -/
inductive Failure where
  | schema (e : SchemaError)
  | outOfFuel
deriving DecidableEq, Inhabited

end TypeSchema
