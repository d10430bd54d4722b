/-
  What the fragment of one descriptor is made of.

  The eight encodings have one form. `Descriptor.parts` are the uses whose fragments go into the
  fragment of a descriptor, in the order in which they are built, and `Descriptor.finish` puts
  those fragments together and writes the annotations. `dispatch_run` says that this is what the
  default generator does, errors and their order included; no proof after it opens an encoding.
-/
import TypeSchema.Generator
import TypeSchema.Proofs.Annotated

namespace TypeSchema

variable {N : Type} {α β : Type}

/-- The keywords that say which values a type has, with those of pointers and definitions. -/
def shapeKeywords : List String :=
  ["type", "enum", "properties", "required", "items", "additionalProperties", "anyOf", "allOf",
    "$ref", "$defs"]

/-- One use of a type, and the annotations of the place that uses it. -/
structure Use (N : Type) where
  descriptor : Descriptor N
  inherited : Annotations := []

/-- The use that a property, an item or a value makes of its type. -/
def Element.use (g : Graph N) (e : Element N) : Use N := ⟨e.child g, e.annotations⟩

/-- The use that a hierarchy makes of one of its variants. -/
def Element.variant (g : Graph N) (e : Element N) : Use N := ⟨e.child g, []⟩

/-- Goes on with a result, or fails as it did. -/
def Build.ofExcept : Except Failure α → Build α
  | .ok a => pure a
  | .error e => throw e

/-- One variant: its fragment, and its name in the discriminator. -/
def taggedVariant (name : String) (body : Object) : Object :=
  Table.ofList [("allOf",
    .array [.object body, .object (Context.tag Context.defaultDiscriminator name)])]

/-- The same under any discriminator. -/
def taggedWith (discriminator name : String) (body : Object) : Object :=
  Table.ofList [("allOf",
    .array [.object body, .object (Context.tag discriminator name)])]

namespace Descriptor

/-- The value of a map whose keys are strings, also if they are wrapped. -/
def stringKeyedValue (g : Graph N) (fuel : Nat) (d : Descriptor N) :
    Except Failure (Element N) := do
  let entries ← d.mapEntries.mapError .schema
  let key ← (entries.1.child g).innermost g fuel
  if key.kind = .primitive .string then .ok entries.2
  else .error (.schema (.unsupportedMapKey d.serialName key.serialName))

/-- The uses that the encoding of the descriptor builds. `fuel` is what looking through the
wrappers around a key may take. -/
def parts (g : Graph N) (fuel : Nat) (d : Descriptor N) : Except Failure (List (Use N)) :=
  match d.kind with
  | .primitive _ | .enumeration | .marker => .ok []
  | .record => .ok (d.elements.map (·.use g))
  | .list => (d.listItem.mapError .schema).map fun item => [item.use g]
  | .map => (d.stringKeyedValue g fuel).map fun value => [value.use g]
  | .polymorphic _ =>
    if d.elements.isEmpty then .error (.schema (.noVariants d.serialName))
    else .ok (d.elements.map (·.variant g))
  | .contextual => .error (.schema (.contextualUnsupported d.serialName))
  | .wrapper => .error (.schema (.unsupportedKind d.serialName d.kind.describe))

/-- The names of the properties that may not be missing. -/
def required (d : Descriptor N) : List String := (d.elements.filter (!·.optional)).map (·.name)

def writeRequired (d : Descriptor N) (s : Object) : Object :=
  if d.required.isEmpty then s else s.insert "required" (Json.strings d.required)

/-- The keywords that say which values the type has, from the fragments of its parts. -/
def shape (d : Descriptor N) (us : List (Use N)) (fs : List Object) : Object :=
  let typed (t : JsonType) : Object := Table.empty.insert "type" (t.keywordValue d.nullable)
  match d.kind with
  | .primitive p => typed p.jsonType
  | .enumeration =>
    let null := if d.nullable then [.null] else []
    Table.empty.insert "enum" (.array (d.elementNames.map .string ++ null))
  | .record => d.writeRequired <|
    (typed .object).insert "properties"
      (Json.ofEntries (List.zipWith (fun e f => (e.name, .object f)) d.elements fs))
  | .list => fs.foldl (fun s f => s.insert "items" (.object f)) (typed .array)
  | .map => fs.foldl (fun s f => s.insert "additionalProperties" (.object f)) (typed .object)
  | .polymorphic _ =>
    let null := if d.nullable then [nullFragment] else []
    let variants := List.zipWith (fun u f => taggedVariant u.descriptor.variantName f) us fs
    Table.empty.insert "anyOf" (.array ((null ++ variants).map .object))
  | .marker | .contextual | .wrapper => .empty

/-- The whole fragment, with `as` in effect. It fails for a bound that is not finite. -/
def finish (d : Descriptor N) (as : Annotations) (us : List (Use N)) (fs : List Object) :
    Except Failure Object := do
  (as.check d.kind.constraints).mapError .schema
  return as.write d.kind.ownKeywords (d.shape us fs)

end Descriptor

/-- The default generator at work on one use. -/
def Use.build (g : Graph N) (fuel : Nat) (u : Use N) : Build Object :=
  Generator.build {} g fuel u.descriptor u.inherited

/-! ## Composing writes -/

theorem Write.compose_writes {w : Write α} {f : Object → Except SchemaError Object}
    (h : Writes w f) (s : Object) (k : α → Write Unit) (k' : Write Unit) (hk : ∀ a, k a = k') :
    Write.compose s (w >>= k) =
      Build.ofExcept ((f s).mapError .schema) >>= fun s => Write.compose s k' := by
  funext r
  have hd := h { fragment := s, registry := r }
  cases hf : f s with
  | ok s' =>
    simp only [hf] at hd
    obtain ⟨a, ha⟩ := hd
    simp only [Write.compose, bind_run, ha, hk]
    rfl
  | error e =>
    simp only [hf] at hd
    obtain ⟨s', hs'⟩ := hd
    simp only [Write.compose, bind_run, hs']
    rfl

theorem Write.compose_last {w : Write Unit} {f : Object → Except SchemaError Object}
    (h : Writes w f) (s : Object) :
    Write.compose s w = Build.ofExcept ((f s).mapError .schema) := by
  funext r
  have hd := h { fragment := s, registry := r }
  cases hf : f s with
  | ok s' =>
    simp only [hf] at hd
    obtain ⟨a, ha⟩ := hd
    simp only [Write.compose, ha]
    rfl
  | error e =>
    simp only [hf] at hd
    obtain ⟨s', hs'⟩ := hd
    simp only [Write.compose, hs']
    rfl

theorem Write.compose_build (b : Build α) (s : Object) (k : α → Write Unit) :
    Write.compose s ((b : Write α) >>= k) = b >>= fun a => Write.compose s (k a) := by
  funext r
  simp only [Write.compose, bind_run, Write.build_run]
  cases b r <;> rfl

/-- Building in order and pairing each result with its element is building in order, and
pairing afterwards. -/
theorem mapM_pair {ε σ γ : Type} (xs : List α) (b : α → EStateM ε σ β) (h : α → β → γ) :
    (xs.mapM fun x => do return h x (← b x)) =
      xs.mapM b >>= fun ys => pure (List.zipWith h xs ys) := by
  induction xs with
  | nil => simp
  | cons x xs ih =>
    simp only [List.mapM_cons, ih, bind_assoc, pure_bind, List.zipWith_cons_cons]

theorem mapM_singleton {ε σ : Type} (x : α) (b : α → EStateM ε σ β) :
    [x].mapM b = b x >>= fun y => pure [y] := by
  simp only [List.mapM_cons, List.mapM_nil, pure_bind]

/-! ## The encodings -/

section

variable (c : Context N)

open SiteKeyword (documentation)

theorem name_ne_of_mem_shape {k : SiteKeyword} {n : String} (hn : n ∈ shapeKeywords) :
    k.name ≠ n := by
  revert n
  cases k with
  | text t => cases t <;> decide
  | length t => cases t <;> decide
  | bound t => cases t <;> decide

theorem writes_header {t : JsonType} (h : c.descriptor.jsonType = .ok t) :
    Writes (Encoding.writeHeader c) fun s =>
      .ok (c.annotations.write [.text .description]
        ((c.annotations.write [.text .comment, .text .title] s).insert "type"
          (t.keywordValue c.descriptor.nullable))) := by
  have htype : Writes c.writeType fun s =>
      .ok (s.insert "type" (t.keywordValue c.descriptor.nullable)) := by
    unfold Context.writeType
    rw [h]
    exact writes_put _ _
  exact ((writes_text _ .comment).seq ((writes_text _ .title).seq
    (htype.seq ((writes_text _ .description).seq (writes_pure ()))))).congr fun _ => rfl

/-- Where the header puts the type among the documentation does not show. -/
theorem header_eq (as : Annotations) {s : Object} (hs : s.Ordered) {n : String}
    (hn : n ∈ shapeKeywords) (v : Json) :
    as.write [.text .description] ((as.write [.text .comment, .text .title] s).insert n v) =
      as.write documentation (s.insert n v) := by
  have hne : ∀ ks : List SiteKeyword, ∀ k ∈ ks, k.name ≠ n := fun _ k _ =>
    name_ne_of_mem_shape hn
  change _ = as.write ([.text .comment, .text .title] ++ [.text .description]) _
  rw [Annotations.write_append, as.write_insert hs (hne _)]

theorem encode_primitive {p : Primitive} (h : c.descriptor.kind = .primitive p) :
    Encoding.primitive c = Build.ofExcept (c.descriptor.finish c.annotations [] []) := by
  have ht : c.descriptor.jsonType = .ok p.jsonType := by
    rw [Descriptor.jsonType, h]; rfl
  have hrest : Writes (do
      let t ← (orFail c.descriptor.jsonType : Write JsonType)
      c.annotations.writeConstraints t) fun s => do
        c.annotations.check (SiteKeyword.constraints p.jsonType)
        return c.annotations.write (SiteKeyword.constraints p.jsonType) s := by
    rw [ht]
    exact writes_constraints c.annotations p.jsonType
  refine (Write.compose_last ((writes_header c ht).seq hrest) .empty).trans (congrArg _ ?_)
  simp only [Descriptor.finish, h, Kind.constraints, Kind.ownKeywords, Kind.siteKeywords,
    Descriptor.shape, Annotations.write_append,
    header_eq _ Table.ordered_empty (n := "type") (by decide)]
  cases c.annotations.check (SiteKeyword.constraints p.jsonType) <;> rfl

theorem encode_enumeration (h : c.descriptor.kind = .enumeration) :
    Encoding.enumeration c = Build.ofExcept (c.descriptor.finish c.annotations [] []) := by
  have hw : Writes (do
      let _ ← c.annotations.writeText .comment
      let _ ← c.annotations.writeText .title
      c.writeEnum
      let _ ← c.annotations.writeText .description) fun s =>
      .ok (c.annotations.write [.text .description]
        ((c.annotations.write [.text .comment, .text .title] s).insert "enum"
          (.array (c.descriptor.elementNames.map .string ++
            if c.descriptor.nullable then [.null] else [])))) :=
    ((writes_text _ .comment).seq ((writes_text _ .title).seq
      ((writes_put _ _).seq ((writes_text _ .description).seq (writes_pure ()))))).congr
      fun _ => rfl
  refine (Write.compose_last hw .empty).trans (congrArg _ ?_)
  simp only [Descriptor.finish, h, Kind.constraints, Kind.ownKeywords, Kind.siteKeywords,
    Descriptor.shape, header_eq _ Table.ordered_empty (n := "enum") (by decide)]
  rfl

/-- After the header, a composite encoding builds its parts and adds one keyword. -/
theorem compose_header_build {t : JsonType} (h : c.descriptor.jsonType = .ok t) (b : Build α)
    (k : α → Write Unit) :
    Write.compose .empty (do
        Encoding.writeHeader c
        let a ← (b : Write α)
        k a) =
      b >>= fun a => Write.compose (c.annotations.write documentation
        (Table.empty.insert "type" (t.keywordValue c.descriptor.nullable))) (k a) := by
  rw [Write.compose_writes (writes_header c h) .empty _ ((b : Write α) >>= k) (fun _ => rfl),
    header_eq _ Table.ordered_empty (n := "type") (by decide)]
  exact Write.compose_build b _ k

theorem finish_composite {d : Descriptor N} (as : Annotations) (us : List (Use N))
    (fs : List Object) (h : d.kind.constraints = []) :
    d.finish as us fs = .ok (as.write d.kind.ownKeywords (d.shape us fs)) := by
  rw [Descriptor.finish, h]; rfl

theorem documentation_insert (as : Annotations) {s : Object} (hs : s.Ordered) {n : String}
    (hn : n ∈ shapeKeywords) (v : Json) :
    as.write documentation (s.insert n v) = (as.write documentation s).insert n v :=
  as.write_insert hs (fun _ _ => name_ne_of_mem_shape hn) v

theorem encode_record (h : c.descriptor.kind = .record) (us : List (Use N)) :
    Encoding.record c = c.descriptor.elements.mapM c.elementFragment >>= fun fs =>
      Build.ofExcept (c.descriptor.finish c.annotations us fs) := by
  have ht : c.descriptor.jsonType = .ok .object := by rw [Descriptor.jsonType, h]; rfl
  have hrequired : Writes c.writeRequired fun s => .ok (c.descriptor.writeRequired s) := by
    refine Writes.of_ok fun draft => ⟨(), ?_⟩
    unfold Context.writeRequired Descriptor.writeRequired
    by_cases hr : c.descriptor.required.isEmpty = true
    · have hr' := hr
      unfold Descriptor.required at hr'
      simp only [hr, hr', if_true]; rfl
    · have hr' := hr
      unfold Descriptor.required at hr'
      simp only [hr, hr']; rfl
  have hproperties : ∀ ps, Writes (do
      put "properties" (Json.ofEntries ps)
      c.writeRequired) fun s =>
        .ok (c.descriptor.writeRequired (s.insert "properties" (Json.ofEntries ps))) :=
    fun ps => ((writes_put _ _).seq hrequired).congr fun _ => rfl
  have hdef : Encoding.record c = Write.compose .empty (do
      Encoding.writeHeader c
      let ps ← (c.propertyFragments : Write (List (String × Json)))
      put "properties" (Json.ofEntries ps)
      c.writeRequired) := by
    simp only [Encoding.record, Context.writeProperties, bind_assoc]
  rw [hdef, compose_header_build c ht, Context.propertyFragments, mapM_pair, bind_assoc]
  refine bind_congr fun fs => ?_
  rw [pure_bind, Write.compose_last (hproperties _), finish_composite _ _ _ (by rw [h]; rfl)]
  have hempty := Table.ordered_insert (Table.ordered_empty (α := Json)) "type"
    (JsonType.object.keywordValue c.descriptor.nullable)
  simp only [h, Kind.ownKeywords, Kind.siteKeywords, Kind.constraints, Descriptor.shape,
    List.append_nil, Descriptor.writeRequired]
  split
  · rw [documentation_insert _ hempty (by decide)]; rfl
  · rw [documentation_insert _ (Table.ordered_insert hempty _ _) (by decide),
      documentation_insert _ hempty (by decide)]
    rfl

theorem encode_list (h : c.descriptor.kind = .list) (us : List (Use N)) :
    Encoding.list c = Build.ofExcept (c.descriptor.listItem.mapError .schema) >>= fun item =>
      c.elementFragment item >>= fun f =>
        Build.ofExcept (c.descriptor.finish c.annotations us [f]) := by
  have ht : c.descriptor.jsonType = .ok .array := by rw [Descriptor.jsonType, h]; rfl
  have hdef : Encoding.list c = Write.compose .empty (do
      Encoding.writeHeader c
      let item ← (Build.ofExcept (c.descriptor.listItem.mapError .schema) : Write (Element N))
      let f ← (c.elementFragment item : Write Object)
      put "items" (.object f)) := by
    unfold Encoding.list Context.writeItems
    cases c.descriptor.listItem <;> rfl
  rw [hdef, compose_header_build c ht]
  refine bind_congr fun item => ?_
  rw [Write.compose_build]
  refine bind_congr fun f => ?_
  rw [Write.compose_last (writes_put _ _), finish_composite _ _ _ (by rw [h]; rfl)]
  simp only [h, Kind.ownKeywords, Kind.siteKeywords, Kind.constraints, Descriptor.shape,
    List.append_nil, List.foldl_cons, List.foldl_nil]
  rw [documentation_insert _ (Table.ordered_insert Table.ordered_empty _ _) (by decide)]
  rfl

theorem stringKeyedValue_run :
    c.stringKeyedValue = Build.ofExcept (c.descriptor.stringKeyedValue c.graph c.fuel) := by
  unfold Context.stringKeyedValue Descriptor.stringKeyedValue
  cases c.descriptor.mapEntries with
  | error e => rfl
  | ok entries =>
    obtain ⟨key, value⟩ := entries
    change (pure (key, value) : Build _) >>= _ =
      Build.ofExcept ((key.child c.graph).innermost c.graph c.fuel >>= _)
    rw [pure_bind]
    dsimp only
    cases (key.child c.graph).innermost c.graph c.fuel with
    | error e => rfl
    | ok key =>
      change (if key.kind = .primitive .string then _ else _) = Build.ofExcept (ite _ _ _)
      split <;> rfl

theorem encode_map (h : c.descriptor.kind = .map) (us : List (Use N)) :
    Encoding.map c = Build.ofExcept (c.descriptor.stringKeyedValue c.graph c.fuel) >>= fun value =>
      c.elementFragment value >>= fun f =>
        Build.ofExcept (c.descriptor.finish c.annotations us [f]) := by
  have ht : c.descriptor.jsonType = .ok .object := by rw [Descriptor.jsonType, h]; rfl
  unfold Encoding.map
  rw [stringKeyedValue_run]
  refine bind_congr fun value => ?_
  unfold Context.writeAdditionalProperties
  rw [compose_header_build c ht]
  refine bind_congr fun f => ?_
  rw [Write.compose_last (writes_put _ _), finish_composite _ _ _ (by rw [h]; rfl)]
  simp only [h, Kind.ownKeywords, Kind.siteKeywords, Kind.constraints, Descriptor.shape,
    List.append_nil, List.foldl_cons, List.foldl_nil]
  rw [documentation_insert _ (Table.ordered_insert Table.ordered_empty _ _) (by decide)]
  rfl

theorem variantFragments_eq (discriminator : String) :
    c.variantFragments discriminator =
      c.descriptor.elements.mapM (fun e => c.build (e.child c.graph) []) >>= fun fs =>
        pure (List.zipWith (fun e f => taggedWith discriminator (e.child c.graph).variantName f)
          c.descriptor.elements fs) :=
  mapM_pair c.descriptor.elements (fun e => c.build (e.child c.graph) []) fun e f =>
    taggedWith discriminator (e.child c.graph).variantName f

theorem writeVariants_empty (h : c.descriptor.elements.isEmpty = true) (discriminator : String) :
    c.writeVariants discriminator = throw (.schema (.noVariants c.descriptor.serialName)) := by
  funext draft
  simp only [Context.writeVariants, h, bind_run, if_true, throw_run]

theorem writeVariants_eq (h : c.descriptor.elements.isEmpty = false) (discriminator : String) :
    c.writeVariants discriminator =
      (c.variantFragments discriminator : Write (List Object)) >>= fun variants =>
        put "anyOf" (.array ((
          (if c.descriptor.nullable then [nullFragment] else []) ++ variants).map .object)) := by
  simp only [Context.writeVariants, h, Bool.false_eq_true, if_false]

theorem encode_polymorphic_empty (h : c.descriptor.elements.isEmpty = true) :
    Encoding.polymorphic c = throw (.schema (.noVariants c.descriptor.serialName)) := by
  funext r
  obtain ⟨_, hrun⟩ := writes_documentation c.annotations { fragment := .empty, registry := r }
  simp only [Encoding.polymorphic, writeVariants_empty c h, Write.compose, bind_run, hrun,
    throw_run]

theorem encode_polymorphic {k : Hierarchy} (h : c.descriptor.kind = .polymorphic k)
    (hne : c.descriptor.elements.isEmpty = false) :
    Encoding.polymorphic c =
      c.descriptor.elements.mapM (fun e => c.build (e.child c.graph) []) >>= fun fs =>
        Build.ofExcept (c.descriptor.finish c.annotations
          (c.descriptor.elements.map (·.variant c.graph)) fs) := by
  unfold Encoding.polymorphic
  rw [writeVariants_eq c hne, Write.compose_writes (writes_documentation _) .empty _
    ((c.variantFragments Context.defaultDiscriminator : Write (List Object)) >>= fun variants =>
      put "anyOf" (.array ((
        (if c.descriptor.nullable then [nullFragment] else []) ++ variants).map .object)))
    (fun _ => rfl)]
  change Write.compose _ _ = _
  rw [Write.compose_build, variantFragments_eq, bind_assoc]
  refine bind_congr fun fs => ?_
  rw [pure_bind, Write.compose_last (writes_put _ _), finish_composite _ _ _ (by rw [h]; rfl)]
  simp only [h, Kind.ownKeywords, Kind.siteKeywords, Kind.constraints, Descriptor.shape,
    List.append_nil, List.zipWith_map_left]
  rw [documentation_insert _ Table.ordered_empty (by decide)]
  rfl

end

/-- The default generator encodes every descriptor in one way: it builds the parts in order and
finishes the fragment. -/
theorem dispatch_run (g : Graph N) (fuel : Nat) (d : Descriptor N) (as : Annotations) :
    Generator.dispatch {} g (fuel + 1) d as =
      Build.ofExcept (d.parts g fuel) >>= fun us =>
        us.mapM (Use.build g fuel) >>= fun fs => Build.ofExcept (d.finish as us fs) := by
  rw [Generator.dispatch]
  cases h : d.kind with
  | primitive p =>
    simp only [Generator.strategy?, Descriptor.parts, h]
    rw [encode_primitive _ (p := p) h]
    rfl
  | enumeration =>
    simp only [Generator.strategy?, Descriptor.parts, h]
    rw [encode_enumeration _ h]
    rfl
  | marker =>
    simp only [Generator.strategy?, Descriptor.parts, h]
    have hfinish : d.finish as [] [] = .ok .empty := by
      rw [finish_composite as _ _ (by rw [h]; rfl), Descriptor.shape, h]; rfl
    change _ = Build.ofExcept (d.finish as [] [])
    rw [hfinish]
    rfl
  | record =>
    simp only [Generator.strategy?, Descriptor.parts, h]
    rw [encode_record _ h (d.elements.map (·.use g))]
    change _ = (d.elements.map (·.use g)).mapM (Use.build g fuel) >>= _
    rw [List.mapM_map]
    rfl
  | list =>
    simp only [Generator.strategy?, Descriptor.parts, h]
    cases hi : d.listItem with
    | error e =>
      rw [encode_list _ h []]
      simp only [hi]
      rfl
    | ok item =>
      rw [encode_list _ h [item.use g]]
      simp only [hi]
      change _ = [item.use g].mapM (Use.build g fuel) >>= _
      rw [mapM_singleton, bind_assoc]
      rfl
  | map =>
    simp only [Generator.strategy?, Descriptor.parts, h]
    cases hv : d.stringKeyedValue g fuel with
    | error e =>
      rw [encode_map _ h []]
      simp only [hv]
      rfl
    | ok value =>
      rw [encode_map _ h [value.use g]]
      simp only [hv]
      change _ = [value.use g].mapM (Use.build g fuel) >>= _
      rw [mapM_singleton, bind_assoc]
      rfl
  | polymorphic k =>
    simp only [Generator.strategy?, Descriptor.parts, h]
    by_cases hne : d.elements.isEmpty = true
    · rw [if_pos hne]
      rw [encode_polymorphic_empty _ hne]
      rfl
    · rw [encode_polymorphic _ (k := k) h (by simpa using hne), if_neg hne]
      change _ = (d.elements.map (·.variant g)).mapM (Use.build g fuel) >>= _
      rw [List.mapM_map]
      rfl
  | contextual =>
    simp only [Generator.strategy?, Descriptor.parts, h]
    rfl
  | wrapper =>
    simp only [Generator.strategy?, Descriptor.parts, h]
    rfl

end TypeSchema
