/-
  Callers of a registry, and what happens while they run.

  A `Script` is what a caller does with a registry: it looks at it, asks for keys, and gives a
  result in the end. What it does next may depend on all that it saw, failed requests included,
  and a builder that it supplies is a script as well, so requests nest to any depth.
  `Script.trace` lists the moments of a run in their order. It learns from `request` itself
  whether a builder is run and on which registry (`entered?`), and `runs_trace` is the inversion
  that all laws about runs are proved by.
-/
import TypeSchema.Proofs.Derivation

namespace TypeSchema

variable {α : Type}

/-- The answer of a build, a result or an error. -/
def Build.answer (b : Build α) (r : Registry) : Except Failure α :=
  match b r with
  | .ok a _ => .ok a
  | .error e _ => .error e

/-- The registry that a build leaves, whether it succeeds or not. -/
def Build.after (b : Build α) (r : Registry) : Registry :=
  match b r with
  | .ok _ r => r
  | .error _ r => r

inductive Script where
  | done (result : Except Failure Object)
  | look (next : Registry → Script)
  | request (key : String) (nullable : Bool) (builder : Option Script)
    (next : Except Failure Object → Script)

/-- One call of `request`, from its start to its end. -/
structure Call where
  key : String
  nullable : Bool
  /-- A builder was supplied. -/
  supplied : Bool
  /-- The registry at the start of the call. -/
  before : Registry
  /-- What the builder gave, if it was run. -/
  built : Option (Except Failure Object)
  answer : Except Failure Object

/-- A moment of a run. -/
structure Event where
  /-- The keys whose builders are at work, the innermost first. -/
  building : List String
  registry : Registry
  /-- The call that ends here, if one does. -/
  call? : Option Call := none

/-- The registry on which `request` runs a builder, if it runs it: one that does nothing but fail
is told from a pointer by its error. -/
def entered? (key : String) (nullable : Bool) (r : Registry) : Option Registry :=
  match request key nullable (some (throw .outOfFuel)) r with
  | .ok _ _ => none
  | .error _ r => some r

/-- The call of `request` on the registry `r`. -/
def Call.of (key : String) (nullable : Bool) (builder : Option (Build Object)) (r : Registry) :
    Call where
  key := key
  nullable := nullable
  supplied := builder.isSome
  before := r
  built := builder.bind fun b => (entered? key nullable r).map b.answer
  answer := Build.answer (TypeSchema.request key nullable builder) r

namespace Script

def run : Script → Build Object
  | done result => Build.ofExcept result
  | look next => fun r => (next r).run r
  | request key nullable builder next => fun r =>
    let definition := match builder with
      | none => none
      | some b => some b.run
    let b := TypeSchema.request key nullable definition
    (next (Build.answer b r)).run (Build.after b r)

/-- What happens while the script runs on a registry, and the builders of `ks` are at work. -/
def trace : Script → List String → Registry → List Event
  | done _, ks, r => [⟨ks, r, none⟩]
  | look next, ks, r => ⟨ks, r, none⟩ :: (next r).trace ks r
  | request key nullable builder next, ks, r =>
    let c := Call.of key nullable (builder.map run) r
    let r' := Build.after (TypeSchema.request key nullable (builder.map run)) r
    let inside := match builder with
      | none => []
      | some b => (entered? key nullable r).elim [] (b.trace (key :: ks))
    ⟨ks, r, none⟩ :: (inside ++ ⟨ks, r', some c⟩ :: (next c.answer).trace ks r')

theorem after_run_request (key : String) (nullable : Bool) (builder : Option Script)
    (next : Except Failure Object → Script) (r : Registry) :
    let b := TypeSchema.request key nullable (builder.map run)
    Build.after (request key nullable builder next).run r =
      Build.after (next (Build.answer b r)).run (Build.after b r) := by
  cases builder <;> rfl

theorem trace_request (key : String) (nullable : Bool) (builder : Option Script)
    (next : Except Failure Object → Script) (ks : List String) (r : Registry) :
    let b := TypeSchema.request key nullable (builder.map run)
    (request key nullable builder next).trace ks r = ⟨ks, r, none⟩ ::
      (builder.elim [] (fun b => (entered? key nullable r).elim [] (b.trace (key :: ks))) ++
        ⟨ks, Build.after b r, some (Call.of key nullable (builder.map run) r)⟩ ::
          (next (Build.answer b r)).trace ks (Build.after b r)) := by
  cases builder <;> rfl

end Script

/-! ## One request -/

section

variable {key : String} {nullable : Bool} {r : Registry}

theorem entered?_known (h : r.contains key = true) : entered? key nullable r = none := by
  unfold entered?
  rw [request_known h]

/-- A builder is run on the registry with its key pending. -/
theorem entered?_unknown (h : r.contains key = false) :
    entered? key nullable r = some (r.insert key .pending) := by
  unfold entered?
  rw [request_unknown_some h]
  rfl

theorem answer_known (h : r.contains key = true) (builder : Option (Build Object)) :
    Build.answer (request key nullable builder) r = .ok (reference key nullable) := by
  unfold Build.answer
  rw [request_known h]

theorem after_known (h : r.contains key = true) (builder : Option (Build Object)) :
    Build.after (request key nullable builder) r = r := by
  unfold Build.after
  rw [request_known h]

theorem answer_missing (h : r.contains key = false) :
    Build.answer (request key nullable none) r = .error (.schema (.missingRefBuilder key)) := by
  unfold Build.answer
  rw [request_unknown_none h]

theorem after_missing (h : r.contains key = false) :
    Build.after (request key nullable none) r = r := by
  unfold Build.after
  rw [request_unknown_none h]

variable {b : Build Object} {t : Object} {e : Failure} {r' : Registry}

theorem answer_built (h : r.contains key = false) (hb : b (r.insert key .pending) = .ok t r') :
    Build.answer (request key nullable (some b)) r = .ok (reference key nullable) := by
  unfold Build.answer
  rw [request_unknown_some h, hb]

theorem after_built (h : r.contains key = false) (hb : b (r.insert key .pending) = .ok t r') :
    Build.after (request key nullable (some b)) r = r'.insert key (.ready t) := by
  unfold Build.after
  rw [request_unknown_some h, hb]

theorem answer_failed (h : r.contains key = false)
    (hb : b (r.insert key .pending) = .error e r') :
    Build.answer (request key nullable (some b)) r = .error e := by
  unfold Build.answer
  rw [request_unknown_some h, hb]

theorem after_failed (h : r.contains key = false)
    (hb : b (r.insert key .pending) = .error e r') :
    Build.after (request key nullable (some b)) r = r' := by
  unfold Build.after
  rw [request_unknown_some h, hb]

end

/-! ## Runs as derivations -/

/-- `Runs ks r s es r'`: while builders of the keys `ks` are at work, the script `s` runs on the
registry `r`, with the events `es`, and leaves `r'`. -/
inductive Runs : List String → Registry → Script → List Event → Registry → Prop
  | done {ks r} (result : Except Failure Object) : Runs ks r (.done result) [⟨ks, r, none⟩] r
  | look {ks r next es r'} :
    Runs ks r (next r) es r' → Runs ks r (.look next) (⟨ks, r, none⟩ :: es) r'
  /-- A key that is registered is pointed to, and no builder is run. -/
  | known {ks r key nullable builder next es r'} :
    r.contains key = true → Runs ks r (next (.ok (reference key nullable))) es r' →
    Runs ks r (.request key nullable builder next) (⟨ks, r, none⟩ ::
      ⟨ks, r, some ⟨key, nullable, builder.isSome, r, none, .ok (reference key nullable)⟩⟩ ::
        es) r'
  | missing {ks r key nullable next es r'} :
    r.contains key = false →
    Runs ks r (next (.error (.schema (.missingRefBuilder key)))) es r' →
    Runs ks r (.request key nullable none next) (⟨ks, r, none⟩ ::
      ⟨ks, r, some ⟨key, nullable, false, r, none, .error (.schema (.missingRefBuilder key))⟩⟩ ::
        es) r'
  /-- The definition of a new key is built while the key is pending. -/
  | built {ks r key nullable b next es es' t r₁ r'} :
    r.contains key = false → Runs (key :: ks) (r.insert key .pending) b es r₁ →
    Runs ks (r₁.insert key (.ready t)) (next (.ok (reference key nullable))) es' r' →
    Runs ks r (.request key nullable (some b) next) (⟨ks, r, none⟩ :: (es ++
      ⟨ks, r₁.insert key (.ready t),
        some ⟨key, nullable, true, r, some (.ok t), .ok (reference key nullable)⟩⟩ :: es')) r'
  /-- A builder that fails leaves its key pending. -/
  | failed {ks r key nullable b next es es' e r₁ r'} :
    r.contains key = false → Runs (key :: ks) (r.insert key .pending) b es r₁ →
    Runs ks r₁ (next (.error e)) es' r' →
    Runs ks r (.request key nullable (some b) next) (⟨ks, r, none⟩ :: (es ++
      ⟨ks, r₁, some ⟨key, nullable, true, r, some (.error e), .error e⟩⟩ :: es')) r'

/-- The induction over scripts: over the builder of a request, if it has one, and over all that
may follow an answer. -/
theorem Script.induct {motive : Script → Prop} (done : ∀ result, motive (.done result))
    (look : ∀ next, (∀ r, motive (next r)) → motive (.look next))
    (request : ∀ key nullable builder next, (∀ b, builder = some b → motive b) →
      (∀ answer, motive (next answer)) → motive (.request key nullable builder next)) :
    ∀ s, motive s
  | .done result => done result
  | .look next => look next fun r => induct done look request (next r)
  | .request key nullable none next =>
    request key nullable none next (fun _ h => nomatch h) fun answer =>
      induct done look request (next answer)
  | .request key nullable (some b) next =>
    request key nullable (some b) next
      (fun _ h => Option.some.inj h ▸ induct done look request b) fun answer =>
      induct done look request (next answer)

/-- Every run of a script is a derivation, and its events are the trace. -/
theorem runs_trace (s : Script) (ks : List String) (r : Registry) :
    Runs ks r s (s.trace ks r) (Build.after s.run r) := by
  induction s using Script.induct generalizing ks r with
  | done result =>
    have hafter : Build.after (Build.ofExcept result) r = r := by cases result <;> rfl
    rw [Script.run, hafter]
    exact .done result
  | look next ih => exact .look (ih r ks r)
  | request key nullable builder next ihb ihnext =>
    rw [Script.after_run_request, Script.trace_request]
    unfold Call.of
    cases hc : r.contains key with
    | true =>
      rw [answer_known hc, after_known hc, entered?_known hc]
      cases builder with
      | none => exact .known hc (ihnext _ ks r)
      | some b => exact .known hc (ihnext _ ks r)
    | false =>
      rw [entered?_unknown hc]
      cases builder with
      | none =>
        rw [Option.map_none, answer_missing hc, after_missing hc]
        exact .missing hc (ihnext _ ks r)
      | some b =>
        have hinside := ihb b rfl (key :: ks) (r.insert key .pending)
        rw [Option.map_some]
        cases hrun : b.run (r.insert key .pending) with
        | ok t r₁ =>
          rw [Build.after, hrun] at hinside
          rw [answer_built hc hrun, after_built hc hrun]
          simp only [Option.bind_some, Option.map_some, Build.answer, hrun]
          exact .built hc hinside (ihnext _ ks _)
        | error e r₁ =>
          rw [Build.after, hrun] at hinside
          rw [answer_failed hc hrun, after_failed hc hrun]
          simp only [Option.bind_some, Option.map_some, Build.answer, hrun]
          exact .failed hc hinside (ihnext _ ks _)

end TypeSchema
