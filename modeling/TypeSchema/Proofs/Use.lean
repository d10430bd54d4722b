/-
  The default generator on one use.

  A use is built in place, or it is a pointer to a definition. `Use.parts` and `Use.finish` say
  what is built in place, for a wrapper as for any other type, and `Use.definition` is the use
  whose form in place is the definition. `build_unkeyed` and `build_keyed` are the two equations
  of the generator in these terms; `build_zero` says when it gives up.
-/
import TypeSchema.Proofs.Assembly

namespace TypeSchema

variable {N : Type}

namespace Element

/-- The same element, asking for no definition. -/
def withoutRefs (e : Element N) : Element N := { e with annotations := e.annotations.withoutRefs }

end Element

namespace Descriptor

/-- The same descriptor, neither it nor its elements asking for a definition. -/
def withoutRefs (d : Descriptor N) : Descriptor N :=
  { d with annotations := d.annotations.withoutRefs, elements := d.elements.map (·.withoutRefs) }

end Descriptor

namespace Use

/-- The key of the definition that the use points to, if it is not built in place. -/
def key? (u : Use N) : Option String := u.descriptor.requestedKey? u.inherited

/-- The value inside a wrapper, used where the wrapper is. -/
def inner (g : Graph N) (u : Use N) (value : Element N) : Use N :=
  ⟨u.descriptor.passNullable (value.child g),
    u.inherited ++ u.descriptor.annotations ++ value.annotations⟩

/-- The uses that are built when the use is built in place. -/
def parts (g : Graph N) (fuel : Nat) (u : Use N) : Except Failure (List (Use N)) :=
  if u.descriptor.isWrapper then
    (u.descriptor.wrapped.mapError .schema).map fun value => [u.inner g value]
  else u.descriptor.parts g fuel

/-- The fragment built in place, from the fragments of the parts. A wrapper leaves no trace. -/
def finish (u : Use N) (us : List (Use N)) (fs : List Object) : Except Failure Object :=
  if u.descriptor.isWrapper then .ok (fs.headD .empty)
  else u.descriptor.finish (u.inherited ++ u.descriptor.annotations) us fs

/-- What is built in place as the definition of the type. It inherits nothing and does not
accept `null`. The value inside a wrapper must not be sent back to the same definition. -/
def definition (u : Use N) : Use N :=
  if u.descriptor.isWrapper then ⟨u.descriptor.nonNullable.withoutRefs, []⟩
  else ⟨u.descriptor.nonNullable, []⟩

/-- The descriptor that says which constraints the use may write. -/
def target (g : Graph N) (fuel : Nat) (u : Use N) : Except Failure (Descriptor N) :=
  if u.descriptor.isWrapper then do
    let value ← u.descriptor.wrapped.mapError .schema
    (value.child g).innermost g fuel
  else .ok u.descriptor

/-- The pointer to the definition under `key`, with the annotations of the use beside it. -/
def pointer (g : Graph N) (fuel : Nat) (u : Use N) (key : String) : Except Failure Object := do
  let target ← u.target g fuel
  (u.inherited.check target.kind.constraints).mapError .schema
  return u.inherited.write target.kind.siteKeywords (reference key u.descriptor.nullable)

/-- Builds the parts and puts them together. -/
def assemble (g : Graph N) (fuel : Nat) (u : Use N) : Build Object :=
  Build.ofExcept (u.parts g fuel) >>= fun us =>
    us.mapM (build g fuel) >>= fun fs => Build.ofExcept (u.finish us fs)

/-- Builds in place: a wrapper right away, and everything else by the strategy of its kind. -/
def inPlace (g : Graph N) (fuel : Nat) (u : Use N) : Build Object :=
  if u.descriptor.isWrapper then u.assemble g fuel
  else Generator.dispatch {} g fuel u.descriptor (u.inherited ++ u.descriptor.annotations)

/-- Fails for a wrapper that does not have exactly one element. -/
def guard (u : Use N) : Except Failure Unit :=
  if u.descriptor.isWrapper then (u.descriptor.wrapped.mapError .schema).map fun _ => ()
  else .ok ()

/-! ## The equations of the generator -/

theorem isWrapper_definition (u : Use N) :
    u.definition.descriptor.isWrapper = u.descriptor.isWrapper := by
  have hk : u.descriptor.nonNullable.kind = u.descriptor.kind := by
    unfold Descriptor.nonNullable
    split <;> rfl
  unfold definition
  split
  · simp only [Descriptor.isWrapper, Descriptor.withoutRefs, hk]
  · simp only [Descriptor.isWrapper, hk]

theorem inherited_definition (u : Use N) : u.definition.inherited = [] := by
  unfold definition
  split <;> rfl

theorem build_zero (g : Graph N) (u : Use N) : u.build g 0 = throw .outOfFuel := by
  unfold build
  rw [Generator.build]

/-- A use that is built in place passes its own annotations on. -/
theorem build_unkeyed (g : Graph N) (fuel : Nat) {u : Use N} (h : u.key? = none) :
    u.build g (fuel + 1) = u.inPlace g fuel := by
  unfold build inPlace
  rw [Generator.build]
  by_cases hw : u.descriptor.isWrapper = true
  · simp only [hw, if_true]
    unfold assemble parts finish
    simp only [hw, if_true]
    cases hv : u.descriptor.wrapped with
    | error e => rfl
    | ok value =>
      simp only [key?] at h
      simp only [h]
      change Generator.build {} g fuel _ _ = [u.inner g value].mapM (build g fuel) >>= _
      rw [mapM_singleton, bind_assoc]
      simp only [pure_bind]
      exact (bind_pure _).symm
  · simp only [hw, Bool.false_eq_true, if_false]
    simp only [key?] at h
    simp only [h]

theorem wrapped_eq_ok {d : Descriptor N} {value : Element N} :
    d.wrapped = .ok value ↔ d.elements = [value] := by
  unfold Descriptor.wrapped
  split
  · next heq => rw [heq]; simp
  · next hne => simp only [reduceCtorEq, false_iff]; exact hne value

theorem elements_nonNullable (d : Descriptor N) : d.nonNullable.elements = d.elements := by
  unfold Descriptor.nonNullable
  split <;> rfl

theorem annotations_nonNullable (d : Descriptor N) :
    d.nonNullable.annotations = d.annotations := by
  unfold Descriptor.nonNullable
  split <;> rfl

theorem nullable_nonNullable (d : Descriptor N) : d.nonNullable.nullable = false := by
  unfold Descriptor.nonNullable
  split
  · rfl
  · next h => simpa using h

/-- The definition of a wrapper is built from the value inside, without the requests of either. -/
theorem parts_definition_of_wrapped (g : Graph N) (fuel : Nat) {u : Use N} {value : Element N}
    (hw : u.descriptor.isWrapper = true) (hv : u.descriptor.wrapped = .ok value) :
    u.definition.parts g fuel =
      .ok [⟨value.child g, (u.descriptor.annotations ++ value.annotations).withoutRefs⟩] := by
  have hwd : u.definition.descriptor.wrapped = .ok value.withoutRefs := by
    rw [wrapped_eq_ok] at hv ⊢
    simp only [definition, hw, if_true, Descriptor.withoutRefs, elements_nonNullable, hv,
      List.map_cons, List.map_nil]
  unfold parts
  rw [isWrapper_definition, if_pos hw, hwd]
  simp only [Except.mapError, Except.map, inner, definition, hw, if_true,
    Descriptor.passNullable, Descriptor.withoutRefs, nullable_nonNullable, Bool.false_eq_true,
    if_false, annotations_nonNullable, List.nil_append, Annotations.withoutRefs,
    List.filter_append]
  rfl

/-- The definition of a wrapper is the fragment of the value inside. -/
theorem inPlace_definition_of_wrapped (g : Graph N) (fuel : Nat) {u : Use N} {value : Element N}
    (hw : u.descriptor.isWrapper = true) (hv : u.descriptor.wrapped = .ok value) :
    u.definition.inPlace g fuel = build g fuel
      ⟨value.child g, (u.descriptor.annotations ++ value.annotations).withoutRefs⟩ := by
  unfold inPlace
  rw [isWrapper_definition, if_pos hw, assemble, parts_definition_of_wrapped g fuel hw hv]
  change [_].mapM (build g fuel) >>= _ = _
  rw [mapM_singleton, bind_assoc]
  simp only [pure_bind, finish, isWrapper_definition, hw, if_true]
  exact bind_pure _

/-- The definition of any other type is its encoding, under its own annotations. -/
theorem inPlace_definition (g : Graph N) (fuel : Nat) {u : Use N}
    (hw : u.descriptor.isWrapper = false) :
    u.definition.inPlace g fuel =
      Generator.dispatch {} g fuel u.descriptor.nonNullable u.descriptor.annotations := by
  unfold inPlace
  rw [isWrapper_definition, if_neg (by simp [hw])]
  simp only [definition, hw, Bool.false_eq_true, if_false, List.nil_append,
    annotations_nonNullable]

theorem writes_useSite (as : Annotations) (target : Descriptor N) :
    Writes (Generator.writeUseSite as target) fun s => do
      as.check target.kind.constraints
      return as.write target.kind.siteKeywords s := by
  obtain ⟨constraints, hdef, hconstraints⟩ : ∃ constraints : Write Unit,
      Generator.writeUseSite as target = (do as.writeDocumentation; constraints) ∧
        Writes constraints fun s => do
          as.check target.kind.constraints
          return as.write target.kind.constraints s := by
    unfold Generator.writeUseSite
    cases target.kind with
    | primitive p => exact ⟨_, rfl, writes_constraints as p.jsonType⟩
    | _ => exact ⟨_, rfl, writes_pure ()⟩
  rw [hdef]
  refine ((writes_documentation as).seq hconstraints).congr fun s => ?_
  unfold Kind.siteKeywords
  rw [Annotations.write_append]
  rfl

/-- Every use of a key that succeeds gets the same pointer. -/
theorem request_reference (key : String) (nullable : Bool) (b : Build Object) :
    request key nullable (some b) =
      request key nullable (some b) >>= fun _ => pure (reference key nullable) := by
  funext r
  rw [bind_run]
  by_cases hc : r.contains key = true
  · rw [request_known hc]
    rfl
  · rw [request_unknown_some (by simpa using hc)]
    cases b (r.insert key .pending) <;> rfl

theorem refer_eq (key : String) (nullable : Bool) (b : Build Object) (as : Annotations)
    (target : Except Failure (Descriptor N)) :
    Generator.refer key nullable b as target =
      request key nullable (some b) >>= fun _ => Build.ofExcept (do
        let target ← target
        (as.check target.kind.constraints).mapError .schema
        return as.write target.kind.siteKeywords (reference key nullable)) := by
  unfold Generator.refer
  rw [request_reference, bind_assoc, bind_assoc]
  refine bind_congr fun _ => ?_
  rw [pure_bind, pure_bind]
  cases target with
  | error e => rfl
  | ok target =>
    change Write.compose _ (Generator.writeUseSite as target) = _
    rw [Write.compose_last (writes_useSite as target)]
    change _ = Build.ofExcept ((as.check target.kind.constraints).mapError .schema >>= _)
    cases as.check target.kind.constraints <;> rfl

/-- Any other use registers its key, and is a pointer whatever the registry knew. -/
theorem build_keyed (g : Graph N) (fuel : Nat) {u : Use N} {key : String}
    (h : u.key? = some key) :
    u.build g (fuel + 1) = Build.ofExcept u.guard >>= fun _ =>
      request key u.descriptor.nullable (some (u.definition.inPlace g fuel)) >>= fun _ =>
        Build.ofExcept (u.pointer g fuel key) := by
  simp only [key?] at h
  unfold build
  rw [Generator.build]
  by_cases hw : u.descriptor.isWrapper = true
  · simp only [hw, if_true]
    unfold guard
    simp only [hw, if_true]
    cases hv : u.descriptor.wrapped with
    | error e => rfl
    | ok value =>
      simp only [h]
      rw [inPlace_definition_of_wrapped g fuel hw hv]
      change Generator.refer _ _ _ _ _ = request _ _ _ >>= _
      rw [refer_eq]
      refine bind_congr fun _ => ?_
      simp only [pointer, target, hw, if_true, hv]
      rfl
  · simp only [hw, Bool.false_eq_true, if_false]
    simp only [h]
    rw [inPlace_definition g fuel (by simpa using hw), refer_eq]
    unfold guard pointer target
    simp only [hw, Bool.false_eq_true, if_false]
    rfl

end Use

end TypeSchema
