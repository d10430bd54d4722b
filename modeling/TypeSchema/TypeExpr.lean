/-
  Type expressions, and the descriptors of the types that they name.

  The scalars, pointers, optional types, sequences and maps have descriptors of their own. All
  other types are declared: `Declarations` gives the name and the descriptor of each. Two sorts
  of names occur. A scalar or a declared type is described under its plain name, but a sequence
  or a map is described under the qualified path of the whole type.
-/
import TypeSchema.Descriptor.Edge

namespace TypeSchema

inductive Scalar where
  | string | str | char | bool
  | i8 | i16 | i32 | i64 | isize
  | u8 | u16 | u32 | u64 | usize
  | f32 | f64
deriving DecidableEq, Inhabited

/-- Owners of one value, described as that value. -/
inductive Pointer where
  | box | counted | atomicCounted
deriving DecidableEq, Inhabited

inductive Sequence where
  | vector | deque | slice | orderedSet | hashSet
  | array (length : Nat)
deriving DecidableEq, Inhabited

inductive Mapping where
  | ordered | hash
deriving DecidableEq, Inhabited

inductive TypeExpr (D : Type) where
  | scalar (s : Scalar)
  | unit
  | option (t : TypeExpr D)
  | pointer (p : Pointer) (t : TypeExpr D)
  | sequence (s : Sequence) (item : TypeExpr D)
  | mapping (m : Mapping) (key value : TypeExpr D)
  | declared (x : D)
deriving DecidableEq, Inhabited

/-- The path and the descriptor of each declared type. -/
structure Declarations (D L : Type) where
  path : D → String
  describe : D → Descriptor (Edge L)

namespace Scalar

def name : Scalar → String
  | string => "String"
  | str => "str"
  | char => "char"
  | bool => "bool"
  | i8 => "i8"
  | i16 => "i16"
  | i32 => "i32"
  | i64 => "i64"
  | isize => "isize"
  | u8 => "u8"
  | u16 => "u16"
  | u32 => "u32"
  | u64 => "u64"
  | usize => "usize"
  | f32 => "f32"
  | f64 => "f64"

def path : Scalar → String
  | string => "alloc::string::String"
  | s => s.name

def primitive : Scalar → Primitive
  | string | str => .string
  | char => .char
  | bool => .boolean
  | i8 => .byte
  | i16 => .short
  | i32 => .int
  | i64 | isize => .long
  | u8 => .uByte
  | u16 => .uShort
  | u32 => .uInt
  | u64 | usize => .uLong
  | f32 => .float
  | f64 => .double

end Scalar

def Pointer.path : Pointer → String
  | box => "alloc::boxed::Box"
  | counted => "alloc::rc::Rc"
  | atomicCounted => "alloc::sync::Arc"

def Sequence.path (item : String) : Sequence → String
  | vector => "alloc::vec::Vec<" ++ item ++ ">"
  | deque => "alloc::collections::vec_deque::VecDeque<" ++ item ++ ">"
  | slice => "[" ++ item ++ "]"
  | orderedSet => "alloc::collections::btree::set::BTreeSet<" ++ item ++ ">"
  | hashSet => "std::collections::hash::set::HashSet<" ++ item ++ ">"
  | array length => "[" ++ item ++ "; " ++ toString length ++ "]"

def Mapping.path : Mapping → String
  | ordered => "alloc::collections::btree::map::BTreeMap"
  | hash => "std::collections::hash::map::HashMap"

namespace TypeExpr

variable {D L : Type}

/-- The qualified path of the type, with the paths of the types inside it. -/
def path (decls : Declarations D L) : TypeExpr D → String
  | scalar s => s.path
  | unit => "()"
  | option t => "core::option::Option<" ++ t.path decls ++ ">"
  | pointer p t => p.path ++ "<" ++ t.path decls ++ ">"
  | sequence s item => s.path (item.path decls)
  | mapping m key value => m.path ++ "<" ++ key.path decls ++ ", " ++ value.path decls ++ ">"
  | declared x => decls.path x

/-- The descriptor of a type. Items, keys and values are deferred to the labels that `label`
gives them. -/
def describe (decls : Declarations D L) (label : TypeExpr D → L) :
    TypeExpr D → Descriptor (Edge L)
  | scalar s => .ofKind s.name (.primitive s.primitive)
  | unit => .ofKind "()" .marker
  | option t => (t.describe decls label).intoNullable
  | pointer _ t => t.describe decls label
  | t@(sequence _ item) => .list (t.path decls) (.deferred (label item))
  | t@(mapping _ key value) =>
    .map (t.path decls) (.deferred (label key)) (.deferred (label value))
  | declared x => decls.describe x

end TypeExpr

end TypeSchema
