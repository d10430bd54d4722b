/-
  Building fragments: the two computations that all of the generator is written in.

  `Build` reads and extends the registry. `Write` also has a fragment at hand, the one under
  construction, and adds keywords to it. Both keep what they did when they fail: a registry keeps
  the keys it was given, and a fragment the keywords written before the error. `Write.compose`
  makes a build out of writes, and `request` is the one way in which definitions are registered.
-/
import TypeSchema.Error
import TypeSchema.Registry

namespace TypeSchema

abbrev Build := EStateM Failure Registry

/-- A fragment under construction, and the registry of the call. -/
structure Draft where
  fragment : Object := .empty
  registry : Registry := {}
deriving Inhabited

abbrev Write := EStateM Failure Draft

variable {α β σ : Type}

/-! ## Running one step -/

theorem bind_run (x : EStateM Failure σ α) (f : α → EStateM Failure σ β) (s : σ) :
    (x >>= f) s =
      match x s with
      | .ok a s => f a s
      | .error e s => .error e s := by
  simp only [bind, EStateM.bind]
  cases x s <;> rfl

theorem pure_run (a : α) (s : σ) : (pure a : EStateM Failure σ α) s = .ok a s := rfl

theorem throw_run (e : Failure) (s : σ) : (throw e : EStateM Failure σ α) s = .error e s := rfl

theorem get_run (s : σ) : (get : EStateM Failure σ σ) s = .ok s s := rfl

theorem modify_run (f : σ → σ) (s : σ) :
    (modify f : EStateM Failure σ PUnit) s = .ok ⟨⟩ (f s) := rfl

/-- Goes on with a result, or fails with its error. -/
def orFail : Except SchemaError α → EStateM Failure σ α
  | .ok a => pure a
  | .error e => throw (.schema e)

instance : MonadLift (Except SchemaError) (EStateM Failure σ) := ⟨orFail⟩

/-! ## Fragments -/

/-- A build among writes works on the registry and leaves the fragment alone. -/
def Write.build (b : Build α) : Write α := fun draft =>
  match b draft.registry with
  | .ok a registry => .ok a { draft with registry }
  | .error e registry => .error e { draft with registry }

instance : MonadLift (EStateM Failure Registry) (EStateM Failure Draft) := ⟨Write.build⟩

/-- The fragment that the writes make of `start`. -/
def Write.compose (start : Object) (w : Write Unit) : Build Object := fun registry =>
  match w { fragment := start, registry } with
  | .ok _ draft => .ok draft.fragment draft.registry
  | .error e draft => .error e draft.registry

/-- Writes one keyword, over the value that it had. -/
def put (keyword : String) (value : Json) : Write Unit :=
  modify fun draft => { draft with fragment := draft.fragment.insert keyword value }

theorem put_run (keyword : String) (value : Json) (draft : Draft) :
    put keyword value draft =
      .ok () { draft with fragment := draft.fragment.insert keyword value } := rfl

/-- A build among writes gives what it gives on its own, and the fragment stays. -/
theorem Write.build_run (b : Build α) (draft : Draft) :
    (b : Write α) draft =
      match b draft.registry with
      | .ok a registry => .ok a { draft with registry }
      | .error e registry => .error e { draft with registry } := rfl

/-! ## Definitions -/

/-- A use of the definition under `key`. The first request registers the key and builds the
definition; while that goes on, and ever after, a request for the key finds it registered. -/
def request (key : String) (nullable : Bool) (definition : Option (Build Object)) :
    Build Object := do
  unless (← get).contains key do
    match definition with
    | none => throw (.schema (.missingRefBuilder key))
    | some definition =>
      modify (·.insert key .pending)
      let fragment ← definition
      modify (·.insert key (.ready fragment))
  return reference key nullable

theorem request_known {key : String} {registry : Registry} (h : registry.contains key = true)
    (nullable : Bool) (definition : Option (Build Object)) :
    request key nullable definition registry = .ok (reference key nullable) registry := by
  simp [request, bind_run, get_run, pure_run, h]

theorem request_unknown_none {key : String} {registry : Registry}
    (h : registry.contains key = false) (nullable : Bool) :
    request key nullable none registry =
      .error (.schema (.missingRefBuilder key)) registry := by
  simp only [request, bind_run, get_run, throw_run, h, Bool.false_eq_true, if_false]

/-- The first request for a key: pending while its definition is built, and ready afterwards. A
definition that fails leaves the key pending. -/
theorem request_unknown_some {key : String} {registry : Registry}
    (h : registry.contains key = false) (nullable : Bool) (definition : Build Object) :
    request key nullable (some definition) registry =
      match definition (registry.insert key .pending) with
      | .ok fragment registry =>
        .ok (reference key nullable) (registry.insert key (.ready fragment))
      | .error e registry => .error e registry := by
  simp only [request, bind_run, get_run, modify_run, pure_run, h, Bool.false_eq_true, if_false]
  cases definition (registry.insert key .pending) <;> rfl

end TypeSchema
