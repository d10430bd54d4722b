/-
  The registry of named definitions, and the pointers to them.

  A key enters the registry as pending, before its definition is built, and is ready once the
  definition is there. So a definition that asks for its own key finds it and gets a pointer,
  which is what makes schemas of types that contain themselves finite. A registry belongs to one
  call; only its ready entries reach the document (`Registry.definitions`).
-/
import TypeSchema.Json

namespace TypeSchema

inductive Entry where
  | pending
  | ready (fragment : Object)
deriving Inhabited

def Entry.ready? : Entry → Option Object
  | pending => none
  | ready fragment => some fragment

structure Registry where
  entries : Table Entry := .empty
deriving Inhabited

namespace Registry

def contains (r : Registry) (key : String) : Bool := r.entries.contains key

def isPending (r : Registry) (key : String) : Bool :=
  match r.entries.get? key with
  | some .pending => true
  | _ => false

/-- The finished definition under `key`. -/
def get? (r : Registry) (key : String) : Option Object := (r.entries.get? key).bind (·.ready?)

/-- The number of keys, pending ones included. -/
def size (r : Registry) : Nat := r.entries.size

def isEmpty (r : Registry) : Bool := r.entries.isEmpty

def insert (r : Registry) (key : String) (entry : Entry) : Registry :=
  ⟨r.entries.insert key entry⟩

/-- The finished definitions under their keys. -/
def definitions (r : Registry) : Object := r.entries.filterMap fun e => e.ready?.map .object

/-- Puts the definitions beside a document. A registry without keys leaves it as it is. -/
def attachTo (r : Registry) (root : Object) : Object :=
  if r.isEmpty then root else root.insert "$defs" (.object r.definitions)

/-! ## What a registration changes -/

theorem contains_insert (r : Registry) (key key' : String) (entry : Entry) :
    (r.insert key entry).contains key' = (decide (key = key') || r.contains key') := by
  by_cases h : key = key' <;> simp [contains, insert, Table.contains, Table.get?_insert, h]

theorem get?_insert_pending (r : Registry) (key key' : String) :
    (r.insert key .pending).get? key' = if key = key' then none else r.get? key' := by
  by_cases h : key = key' <;> simp [get?, insert, Table.get?_insert, Entry.ready?, h]

theorem get?_insert_ready (r : Registry) (key key' : String) (fragment : Object) :
    (r.insert key (.ready fragment)).get? key' =
      if key = key' then some fragment else r.get? key' := by
  by_cases h : key = key' <;> simp [get?, insert, Table.get?_insert, Entry.ready?, h]

/-- A key is registered when it is pending or has a definition. -/
theorem contains_eq (r : Registry) (key : String) :
    r.contains key = (r.isPending key || (r.get? key).isSome) := by
  simp only [contains, isPending, get?, Table.contains]
  cases r.entries.get? key with
  | none => rfl
  | some entry => cases entry <;> rfl

end Registry

/-- The pointer to the definition under `key`. -/
def pointer (key : String) : Object := Table.ofList [("$ref", .string ("#/$defs/" ++ key))]

/-- The fragment that accepts `null` alone. -/
def nullFragment : Object := Table.ofList [("type", .string "null")]

/-- One use of the definition under `key`. A nullable use is a choice between `null` and the
pointer, so the definition itself never has to accept `null`. -/
def reference (key : String) (nullable : Bool) : Object :=
  if nullable then
    Table.ofList [("anyOf", .array [.object nullFragment, .object (pointer key)])]
  else pointer key

end TypeSchema
