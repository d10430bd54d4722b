/-
  Annotations: documentation, constraints and requests for a reference.

  They are collected from the place where a type is used and from the type itself, those of the
  place first, and of each tag the first one counts (`Annotations.text?` and its siblings). A
  bound may be given as an integer and as a double. The two are looked up apart from each other.
-/
import TypeSchema.Double.Basic
import TypeSchema.Name

namespace TypeSchema

/-- The tags that carry a text. -/
inductive TextTag where
  | title | description | comment | pattern | format
deriving DecidableEq, Inhabited

/-- The tags that bound the length of a text. -/
inductive LengthTag where
  | minLength | maxLength
deriving DecidableEq, Inhabited

/-- The tags that bound a number. -/
inductive Bound where
  | multipleOf | minimum | maximum | exclusiveMinimum | exclusiveMaximum
deriving DecidableEq, Inhabited

inductive Annotation where
  | text (tag : TextTag) (value : String)
  | length (tag : LengthTag) (value : UInt64)
  | bound (tag : Bound) (value : Int64)
  | boundDouble (tag : Bound) (value : Double)
  /-- Asks for a definition of the type under this key. -/
  | ref (key : String)
  /-- Asks for a definition of the type under its own name. -/
  | refBySerialName
deriving DecidableEq, Inhabited

namespace Annotation

def isRef : Annotation → Bool
  | ref _ | refBySerialName => true
  | _ => false

def text? (t : TextTag) : Annotation → Option String
  | text t' s => if t' = t then some s else none
  | _ => none

def length? (t : LengthTag) : Annotation → Option UInt64
  | length t' n => if t' = t then some n else none
  | _ => none

def bound? (t : Bound) : Annotation → Option Int64
  | bound t' i => if t' = t then some i else none
  | _ => none

def boundDouble? (t : Bound) : Annotation → Option Double
  | boundDouble t' x => if t' = t then some x else none
  | _ => none

/-- The key under which the annotation asks for a definition. A nullable type is defined without
its mark, so its nullable and its other uses share one definition. -/
def refName? (serialName : String) (nullable : Bool) : Annotation → Option String
  | ref key => some key
  | refBySerialName =>
    some (if nullable then (Name.beforeMark? serialName).getD serialName else serialName)
  | _ => none

/-- Equality that compares doubles as numbers. -/
def numEq : Annotation → Annotation → Bool
  | boundDouble t x, boundDouble t' x' => t = t' && x.numEq x'
  | a, a' => a = a'

theorem isSome_refName? (serialName : String) (nullable : Bool) (a : Annotation) :
    (a.refName? serialName nullable).isSome = a.isRef := by
  cases a <;> rfl

end Annotation

abbrev Annotations := List Annotation

namespace Annotations

def text? (as : Annotations) (t : TextTag) : Option String := as.findSome? (·.text? t)

def length? (as : Annotations) (t : LengthTag) : Option UInt64 := as.findSome? (·.length? t)

def bound? (as : Annotations) (t : Bound) : Option Int64 := as.findSome? (·.bound? t)

def boundDouble? (as : Annotations) (t : Bound) : Option Double :=
  as.findSome? (·.boundDouble? t)

/-- The key of the first annotation that asks for a reference. -/
def refName? (as : Annotations) (serialName : String) (nullable : Bool) : Option String :=
  as.findSome? (·.refName? serialName nullable)

def hasRef (as : Annotations) : Bool := as.any (·.isRef)

def withoutRefs (as : Annotations) : Annotations := as.filter (!·.isRef)

/-- The same annotations in the same order, doubles compared as numbers. -/
def numEq : Annotations → Annotations → Bool
  | [], [] => true
  | a :: as, b :: bs => a.numEq b && numEq as bs
  | _, _ => false

theorem isSome_refName? (as : Annotations) (serialName : String) (nullable : Bool) :
    (as.refName? serialName nullable).isSome = as.hasRef := by
  simp [refName?, hasRef, List.isSome_findSome?, Annotation.isSome_refName?]

end Annotations

end TypeSchema
