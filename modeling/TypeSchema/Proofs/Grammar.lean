/-
  The grammar of documents.

  `Clause s key j` says that the schema `s` may have the value `j` under the keyword `key`. What a
  use writes goes into fragments that other types have made, so a clause for a constraint asks what
  else the fragment says: it is for values of the constrained type, or it is a pointer. A schema is
  `Grammatical` if all its keywords are so, and `Wellformed` if the schemas inside are besides.
  Finished fragments and pointers are (`wellformed_finish`, `wellformed_pointer`), hence everything
  that is built, and so every document (`wellformedDocument_of_schemaOf`).
-/
import TypeSchema.Proofs.Definitions
import TypeSchema.Proofs.Narrowing
import TypeSchema.Proofs.Vocabulary

namespace TypeSchema

variable {N : Type} {g : Graph N}

/-! ## The grammar -/

/-- The keywords of schemas. `$defs` is not among them: it is the document that has it. -/
def vocabulary : List String :=
  ["type", "enum", "properties", "required", "items", "additionalProperties", "anyOf", "allOf",
    "$ref", "title", "description", "$comment", "format", "pattern", "minLength", "maxLength",
    "minimum", "maximum", "exclusiveMinimum", "exclusiveMaximum", "multipleOf"]

/-- The schema is for values of the JSON type of this name, or for those and `null`. -/
def HasType (s : Object) (name : String) : Prop :=
  s.get? "type" = some (.string name) ∨ s.get? "type" = some (Json.strings [name, "null"])

/-- The schema is a pointer, or the choice between `null` and a pointer. -/
def IsPointer (s : Object) : Prop :=
  ∃ key, s.get? "$ref" = some (refTo key) ∨
    s.get? "anyOf" = some (.array [.object nullFragment, .object (pointer key)])

/-- Constraints of the types with these names may stand in the schema. -/
def Bears (s : Object) (names : List String) : Prop := IsPointer s ∨ ∃ name ∈ names, HasType s name

/-- The values that the keywords of `s` may have, with a rule for each keyword. Below `properties`,
`items` and the like the rules ask for objects, which have rules of their own (`Wellformed`). -/
inductive Clause (s : Object) : String → Json → Prop
  | type {name : String} : name ∈ typeNames → Clause s "type" (.string name)
  | nullableType {name : String} : name ∈ typeNames → name ≠ "null" →
    Clause s "type" (Json.strings [name, "null"])
  | enum (names : List String) : Clause s "enum" (Json.strings names)
  | nullableEnum (names : List String) :
    Clause s "enum" (.array (names.map .string ++ [.null]))
  | properties {ps : Object} : (∀ k j, ps.get? k = some j → ∃ t, j = .object t) →
    Clause s "properties" (.object ps)
  | required {names : List String} {ps : Object} : names ≠ [] → names.Nodup →
    s.get? "properties" = some (.object ps) → (∀ n ∈ names, ∃ t, ps.get? n = some (.object t)) →
    Clause s "required" (Json.strings names)
  | items (t : Object) : Clause s "items" (.object t)
  | additional (t : Object) : Clause s "additionalProperties" (.object t)
  | anyOf {ts : List Object} : ts ≠ [] → Clause s "anyOf" (.array (ts.map .object))
  | allOf (t t' : Object) : Clause s "allOf" (.array [.object t, .object t'])
  | ref (key : String) : Clause s "$ref" (refTo key)
  | documentation {k : String} (text : String) : k ∈ ["title", "description", "$comment"] →
    Clause s k (.string text)
  | text {k : String} (text : String) : k ∈ ["format", "pattern"] → Bears s ["string"] →
    Clause s k (.string text)
  | length {k : String} (n : UInt64) : k ∈ ["minLength", "maxLength"] → Bears s ["string"] →
    Clause s k (.int n.toNat)
  | bound {k : String} (i : Int64) :
    k ∈ ["minimum", "maximum", "exclusiveMinimum", "exclusiveMaximum", "multipleOf"] →
    Bears s ["integer", "number"] → Clause s k (.int i.toInt)
  | boundDouble {k : String} {x : Double} :
    k ∈ ["minimum", "maximum", "exclusiveMinimum", "exclusiveMaximum", "multipleOf"] →
    Bears s ["integer", "number"] → x.isFinite = true → Clause s k (.number (.double x))

/-- Every keyword of the schema is in the grammar. -/
def Grammatical (s : Object) : Prop := ∀ k j, s.get? k = some j → Clause s k j

/-- The schema is in the grammar, and so is every schema inside. -/
def Wellformed (f : Object) : Prop := ∀ s, Within f s → Grammatical s

/-- A document is in the grammar, definitions included. It alone may have them. -/
structure WellformedDocument (doc : Object) : Prop where
  root : ∀ k j, doc.get? k = some j → Clause doc k j ∨
    k = "$defs" ∧ ∃ defs : Object, j = .object defs ∧
      ∀ key j', defs.get? key = some j' → ∃ t, j' = .object t
  inside : ∀ s, Relation.TransGen Position doc s → Grammatical s

/-! ## Clauses -/

theorem Clause.mem_vocabulary {s : Object} {k : String} {j : Json} (h : Clause s k j) :
    k ∈ vocabulary := by
  have hsub : ∀ ks : List String, ks ⊆ vocabulary → k ∈ ks → k ∈ vocabulary :=
    fun _ hks hk => hks hk
  cases h with
  | documentation _ hk => exact hsub _ (by decide) hk
  | text _ hk => exact hsub _ (by decide) hk
  | length _ hk => exact hsub _ (by decide) hk
  | bound _ hk => exact hsub _ (by decide) hk
  | boundDouble hk => exact hsub _ (by decide) hk
  | _ => decide

/-- A clause looks at nothing but the shape of its schema. -/
theorem Clause.of_get?_eq {s s' : Object} {k : String} {j : Json}
    (h : ∀ n ∈ shapeKeywords, n ≠ "$defs" → s.get? n = s'.get? n) (hc : Clause s k j) :
    Clause s' k j := by
  have hbears : ∀ names, Bears s names → Bears s' names := by
    intro names hs
    unfold Bears IsPointer HasType at hs ⊢
    rw [← h "$ref" (by decide) (by decide), ← h "anyOf" (by decide) (by decide),
      ← h "type" (by decide) (by decide)]
    exact hs
  cases hc with
  | type hname => exact .type hname
  | nullableType hname hne => exact .nullableType hname hne
  | enum names => exact .enum names
  | nullableEnum names => exact .nullableEnum names
  | properties hps => exact .properties hps
  | required hne hnodup hs hnames =>
    exact .required hne hnodup ((h _ (by decide) (by decide)).symm.trans hs) hnames
  | items t => exact .items t
  | additional t => exact .additional t
  | anyOf hne => exact .anyOf hne
  | allOf t t' => exact .allOf t t'
  | ref key => exact .ref key
  | documentation text hk => exact .documentation text hk
  | text text hk hs => exact .text text hk (hbears _ hs)
  | length n hk hs => exact .length n hk (hbears _ hs)
  | bound i hk hs => exact .bound i hk (hbears _ hs)
  | boundDouble hk hs hx => exact .boundDouble hk (hbears _ hs) hx

theorem Clause.of_sameShape {s s' : Object} {k : String} {j : Json} (h : SameShape s s')
    (hc : Clause s k j) : Clause s' k j := hc.of_get?_eq fun n hn _ => h n hn

theorem Grammatical.get?_defs {s : Object} (h : Grammatical s) : s.get? "$defs" = none := by
  apply Option.eq_none_iff_forall_ne_some.mpr
  intro j hj
  exact absurd (h _ _ hj).mem_vocabulary (by decide)

theorem Clause.keywordValue {s : Object} {t : JsonType} (ht : t ≠ .null) (nullable : Bool) :
    Clause s "type" (t.keywordValue nullable) := by
  cases nullable with
  | false => exact .type t.name_mem_typeNames
  | true =>
    exact .nullableType t.name_mem_typeNames fun hnull => ht (JsonType.name_injective hnull)

theorem hasType_of_keywordValue {s : Object} {t : JsonType} {nullable : Bool}
    (h : s.get? "type" = some (t.keywordValue nullable)) : HasType s t.name := by
  cases nullable with
  | false => exact Or.inl h
  | true => exact Or.inr h

theorem Primitive.jsonType_ne_null (p : Primitive) : p.jsonType ≠ .null := by
  cases p <;> decide

/-! ## What annotations write -/

section

variable {s : Object} {as : Annotations} {j : Json}

theorem Clause.of_documentation {k : SiteKeyword} (hk : k ∈ SiteKeyword.documentation)
    (h : as.value? k = some j) : Clause s k.name j := by
  obtain ⟨t, rfl, ht⟩ : ∃ t : TextTag, k = .text t ∧
      t.keyword ∈ ["title", "description", "$comment"] := by
    simp only [SiteKeyword.documentation, List.mem_cons, List.not_mem_nil, or_false] at hk
    rcases hk with rfl | rfl | rfl
    · exact ⟨.comment, rfl, by decide⟩
    · exact ⟨.title, rfl, by decide⟩
    · exact ⟨.description, rfl, by decide⟩
  obtain ⟨text, _, rfl⟩ := Option.map_eq_some_iff.mp h
  exact .documentation text ht

theorem Clause.of_text {k : SiteKeyword} (hk : k ∈ SiteKeyword.constraints .string)
    (hs : Bears s ["string"]) (h : as.value? k = some j) : Clause s k.name j := by
  have htext : ∀ t : TextTag, t.keyword ∈ ["format", "pattern"] →
      as.value? (.text t) = some j → Clause s t.keyword j := by
    intro t ht h
    obtain ⟨text, _, rfl⟩ := Option.map_eq_some_iff.mp h
    exact .text text ht hs
  have hlength : ∀ t : LengthTag, t.keyword ∈ ["minLength", "maxLength"] →
      as.value? (.length t) = some j → Clause s t.keyword j := by
    intro t ht h
    obtain ⟨n, _, rfl⟩ := Option.map_eq_some_iff.mp h
    exact .length n ht hs
  simp only [SiteKeyword.constraints, if_true, List.mem_cons, List.not_mem_nil, or_false] at hk
  rcases hk with rfl | rfl | rfl | rfl
  · exact htext .format (by decide) h
  · exact htext .pattern (by decide) h
  · exact hlength .minLength (by decide) h
  · exact hlength .maxLength (by decide) h

theorem Clause.of_bound {t : Bound} (hs : Bears s ["integer", "number"])
    (hx : ∀ x, as.value? (.bound t) = some (.number (.double x)) → x.isFinite = true)
    (h : as.value? (.bound t) = some j) : Clause s t.keyword j := by
  have hkeyword : t.keyword ∈
      ["minimum", "maximum", "exclusiveMinimum", "exclusiveMaximum", "multipleOf"] := by
    cases t <;> decide
  have hvalue := h
  rcases Option.or_eq_some_iff.mp hvalue with hint | ⟨_, hdouble⟩
  · obtain ⟨i, _, rfl⟩ := Option.map_eq_some_iff.mp hint
    exact .bound i hkeyword hs
  · obtain ⟨x, _, rfl⟩ := Option.map_eq_some_iff.mp hdouble
    exact .boundDouble hkeyword hs (hx x h)

/-- What a use writes for a type of the kind `k` is in the grammar of any schema that is a pointer
or has the JSON type of the kind. -/
theorem Clause.of_value {k : Kind} {a : SiteKeyword} (ha : a ∈ k.siteKeywords)
    (hs : ∀ p, k = .primitive p → Bears s [p.jsonType.name])
    (hcheck : as.check k.constraints = .ok ()) (h : as.value? a = some j) : Clause s a.name j := by
  rcases List.mem_append.mp ha with ha | ha
  · exact .of_documentation ha h
  cases k with
  | primitive p =>
    have hbears := hs p rfl
    change a ∈ SiteKeyword.constraints p.jsonType at ha
    by_cases hp : p.jsonType = .string
    · rw [hp] at ha hbears
      exact .of_text ha hbears h
    · unfold SiteKeyword.constraints at ha
      rw [if_neg hp] at ha
      split at ha
      · next hnumeric =>
        obtain ⟨t, ht, rfl⟩ := List.mem_map.mp ha
        refine .of_bound ?_ (fun x hx => ?_) h
        · refine hbears.imp_right fun hb => ⟨p.jsonType.name, ?_, ?_⟩
          · have hp' : p.jsonType = .integer ∨ p.jsonType = .number := by
              simpa [JsonType.isNumeric] using hnumeric
            rcases hp' with hp' | hp' <;> rw [hp'] <;> decide
          · obtain ⟨t, ht, hb⟩ := hb
            rw [List.mem_singleton.mp ht] at hb
            exact hb
        · refine Annotations.check_eq_ok_iff.mp hcheck t ?_ x hx
          show _ ∈ SiteKeyword.constraints p.jsonType
          unfold SiteKeyword.constraints
          rw [if_neg hp, if_pos hnumeric]
          exact List.mem_map_of_mem ht
      · exact absurd ha List.not_mem_nil
  | _ => exact absurd ha List.not_mem_nil

theorem Grammatical.write {k : Kind} {ks : List SiteKeyword} (h : Grammatical s)
    (hks : ks ⊆ k.siteKeywords) (hs : ∀ p, k = .primitive p → Bears s [p.jsonType.name])
    (hcheck : as.check k.constraints = .ok ()) : Grammatical (as.write ks s) := by
  intro n j hj
  have hclause : Clause s n j := by
    by_cases hn : ∃ a ∈ ks, a.name = n
    · obtain ⟨a, ha, rfl⟩ := hn
      rw [as.get?_write_of_mem s ha] at hj
      rcases Option.or_eq_some_iff.mp hj with hvalue | ⟨_, hold⟩
      · exact .of_value (hks ha) hs hcheck hvalue
      · exact h _ _ hold
    · rw [as.get?_write_of_not_mem s fun a ha hname => hn ⟨a, ha, hname⟩] at hj
      exact h _ _ hj
  exact hclause.of_sameShape (SameShape.write as ks s).symm

end

/-! ## Fixed fragments -/

/-- A schema with one keyword is as good as that keyword is. -/
theorem Grammatical.of_one {s : Object} {k : String} {v : Json}
    (h : ∀ n, s.get? n = if k = n then some v else none) (hv : Clause s k v) : Grammatical s := by
  intro n j hj
  rw [h] at hj
  split at hj
  · next hn =>
    cases hn
    cases hj
    exact hv
  · cases hj

theorem Grammatical.of_two {s : Object} {k k' : String} {v v' : Json}
    (h : ∀ n, s.get? n = if k = n then some v else if k' = n then some v' else none)
    (hv : Clause s k v) (hv' : Clause s k' v') : Grammatical s := by
  intro n j hj
  rw [h] at hj
  split at hj
  · next hn =>
    cases hn
    cases hj
    exact hv
  · split at hj
    · next hn =>
      cases hn
      cases hj
      exact hv'
    · cases hj

theorem grammatical_reference (key : String) (nullable : Bool) :
    Grammatical (reference key nullable) := by
  cases nullable with
  | false => exact .of_one (get?_reference key false) (.ref key)
  | true =>
    have hne : [nullFragment, pointer key] ≠ [] := List.cons_ne_nil _ _
    exact .of_one (get?_reference key true) (.anyOf hne)

theorem isPointer_reference (key : String) (nullable : Bool) :
    IsPointer (reference key nullable) := by
  refine ⟨key, ?_⟩
  cases nullable with
  | false => exact Or.inl (get?_reference key false "$ref")
  | true => exact Or.inr (get?_reference key true "anyOf")

theorem grammatical_tag (name : String) :
    Grammatical (Context.tag Context.defaultDiscriminator name) := by
  have hproperties : Table.get? (Table.ofList [("type", Json.object (literal name))]) "type" =
      some (.object (literal name)) := Table.get?_ofList_singleton _ _ _
  refine .of_two (get?_tag name) (.properties fun n j hj => ⟨literal name, ?_⟩) ?_
  · have hmem := Table.mem_of_get?_ofList hj
    exact (Prod.mk.inj (List.mem_singleton.mp hmem)).2
  · refine .required (List.cons_ne_nil _ _) (List.nodup_singleton _) (get?_tag name _) ?_
    exact List.forall_mem_singleton.mpr ⟨literal name, hproperties⟩

/-- A schema is well-formed if it is in the grammar and all schemas right inside are
well-formed. -/
theorem Wellformed.of_subschemas {f : Object} (hf : Grammatical f)
    (h : ∀ t, Subschema f t → Wellformed t) : Wellformed f := by
  intro s hs
  rcases hs.cases with rfl | ⟨t, ht, hs⟩
  · exact hf
  · exact h t ht s hs

theorem Wellformed.subschema {f t : Object} (h : Wellformed f) (ht : Subschema f t) :
    Wellformed t := fun s hs => h s (.head ht hs)

theorem wellformed_nullFragment : Wellformed nullFragment :=
  .of_subschemas (.of_one get?_nullFragment (.type (by decide)))
    fun t ht => absurd ht (not_subschema_nullFragment t)

theorem wellformed_barePointer (key : String) : Wellformed (pointer key) :=
  .of_subschemas (grammatical_reference key false)
    fun t ht => absurd ht (not_subschema_pointer key t)

theorem wellformed_taggedVariant {body : Object} (h : Wellformed body) (name : String) :
    Wellformed (taggedVariant name body) := by
  have hliteral : Wellformed (literal name) :=
    .of_subschemas (.of_one (get?_literal name) (.enum [name]))
      fun t ht => absurd ht (not_subschema_literal name t)
  have htag : Wellformed (Context.tag Context.defaultDiscriminator name) := by
    refine .of_subschemas (grammatical_tag name) fun t ht => ?_
    rw [subschema_tag ht]
    exact hliteral
  refine .of_subschemas (.of_one (get?_taggedVariant name body) (.allOf _ _)) fun t ht => ?_
  rcases subschema_taggedVariant ht with rfl | rfl
  · exact h
  · exact htag

/-! ## Finished fragments -/

section

variable {u : Use N} {us : List (Use N)} {fs : List Object} {f : Object} {n : Nat}

theorem grammatical_shape_record {d : Descriptor N} (hk : d.kind = .record)
    (hlen : d.elements.length = fs.length) (hn : d.elementNames.Nodup) :
    Grammatical (d.shape us fs) := by
  have hproperties : (d.shape us fs).get? "properties" =
      some (.object (Table.ofList (d.properties fs))) := by
    rw [Descriptor.get?_shape_record _ _ hk, if_neg (by simp), if_pos rfl]
    rfl
  have hrequired : d.required.Nodup := by
    refine List.Nodup.sublist ?_ hn
    exact List.filter_sublist.map _
  intro k j hj
  rw [Descriptor.get?_shape_record _ _ hk] at hj
  split at hj
  · next hreq =>
    obtain ⟨rfl, hne⟩ := hreq
    cases hj
    refine .required hne hrequired hproperties fun name hname => ?_
    obtain ⟨e, he, rfl⟩ := List.mem_map.mp hname
    obtain ⟨f, hp⟩ := exists_mem_zip_of_left hlen (List.mem_of_mem_filter he)
    exact ⟨f, Descriptor.get?_properties hlen hn hp⟩
  · split at hj
    · next hk' =>
      cases hk'
      cases hj
      refine .properties fun name j hj => ?_
      obtain ⟨p, _, heq⟩ := mem_zipWith.mp (Table.mem_of_get?_ofList hj)
      exact ⟨p.2, (Prod.mk.inj heq).2.symm⟩
    · split at hj
      · next hk' =>
        cases hk'
        cases hj
        exact .keywordValue (by decide) _
      · cases hj

theorem grammatical_shape (hp : u.parts g n = .ok us) (hlen : us.length = fs.length)
    (hk : u.descriptor.kind ≠ .wrapper)
    (hn : u.descriptor.kind = .record → u.descriptor.elementNames.Nodup) :
    Grammatical (u.descriptor.shape us fs) := by
  obtain ⟨hparts, henc⟩ := parts_eq_ok_iff.mp hp
  cases hparts with
  | primitive p hk =>
    exact .of_one (Descriptor.get?_shape_primitive _ _ hk) (.keywordValue p.jsonType_ne_null _)
  | enumeration hk =>
    refine .of_one (Descriptor.get?_shape_enumeration _ _ hk) ?_
    cases u.descriptor.nullable with
    | false =>
      rw [if_neg Bool.false_ne_true, List.append_nil]
      exact .enum _
    | true => exact .nullableEnum _
  | marker hk =>
    intro k j hj
    rw [Descriptor.get?_shape_marker _ _ hk] at hj
    cases hj
  | record hk =>
    refine grammatical_shape_record hk ?_ (hn hk)
    rw [← hlen, List.length_map]
  | list item hk hes =>
    obtain ⟨f, rfl⟩ := List.length_eq_one_iff.mp hlen.symm
    exact .of_two (Descriptor.get?_shape_list _ hk f) (.items f) (.keywordValue (by decide) _)
  | map key value hk hes =>
    obtain ⟨f, rfl⟩ := List.length_eq_one_iff.mp hlen.symm
    exact .of_two (Descriptor.get?_shape_map _ hk f) (.additional f)
      (.keywordValue (by decide) _)
  | polymorphic h hk =>
    refine .of_one (Descriptor.get?_shape_polymorphic _ _ hk) (.anyOf ?_)
    obtain ⟨e, he⟩ := List.exists_mem_of_ne_nil _ (henc.variants h hk)
    obtain ⟨f, hf⟩ := exists_mem_zip_of_left hlen (List.mem_map_of_mem he)
    have hvariant : taggedVariant (e.variant g).descriptor.variantName f ∈
        Descriptor.variants (u.descriptor.elements.map (·.variant g)) fs :=
      mem_zipWith.mpr ⟨(e.variant g, f), hf, rfl⟩
    exact List.append_ne_nil_of_right_ne_nil _ (List.ne_nil_of_mem hvariant)
  | wrapper value hkw hes => exact absurd hkw hk

theorem wellformed_finish (hp : u.parts g n = .ok us) (hlen : us.length = fs.length)
    (hn : u.descriptor.kind = .record → u.descriptor.elementNames.Nodup)
    (hf : u.finish us fs = .ok f) (hfs : ∀ f' ∈ fs, Wellformed f') : Wellformed f := by
  have hparts := Parts.of_parts hp
  by_cases hk : u.descriptor.kind = .wrapper
  · obtain ⟨value, _, rfl⟩ := hparts.of_wrapper hk
    obtain ⟨f', rfl⟩ := List.length_eq_one_iff.mp hlen.symm
    rw [Use.finish_wrapper hk hf]
    exact hfs f' (List.mem_singleton_self f')
  have hshape := Use.sameShape_finish hk hf
  rw [Use.finish_eq_descriptor hk, Descriptor.finish_eq_ok] at hf
  obtain ⟨hcheck, rfl⟩ := hf
  refine .of_subschemas ?_ fun t ht => ?_
  · refine (grammatical_shape hp hlen hk hn).write ?_ (fun p hp => ?_) hcheck
    · unfold Kind.ownKeywords
      split
      · exact List.nil_subset _
      · exact List.Subset.refl _
    · refine Or.inr ⟨p.jsonType.name, List.mem_singleton_self _, ?_⟩
      exact hasType_of_keywordValue (Descriptor.get?_shape_primitive us fs hp "type")
  · rcases subschema_shape hparts hlen hk (ht.of_sameShape hshape) with
      ht | rfl | ⟨name, f', hf', rfl⟩
    · exact hfs t ht
    · exact wellformed_nullFragment
    · exact wellformed_taggedVariant (hfs f' hf') name

theorem wellformed_pointer {key : String} (h : u.pointer g n key = .ok f) :
    Wellformed f := by
  have hshape := SameShape.pointer h
  obtain ⟨target, htarget, rfl⟩ := Use.pointer_eq_ok h
  refine .of_subschemas ?_ fun t ht => ?_
  · refine (grammatical_reference key _).write (List.Subset.refl _) (fun _ _ => ?_)
      (Use.check_of_pointer htarget h)
    exact Or.inl (isPointer_reference key _)
  · rcases subschema_reference (ht.of_sameShape hshape) with rfl | rfl
    · exact wellformed_nullFragment
    · exact wellformed_barePointer key

/-- A build makes well-formed fragments and definitions, if those it finds are. -/
theorem Builds.wellformed {r r' : Registry} (h : Builds g r us fs r')
    (hn : ∀ u ∈ us, DistinctNames g u.descriptor)
    (hr : ∀ key t, r.get? key = some t → Wellformed t) :
    (∀ f ∈ fs, Wellformed f) ∧ ∀ key t, r'.get? key = some t → Wellformed t := by
  induction h with
  | nil r => exact ⟨fun f hf => absurd hf List.not_mem_nil, hr⟩
  | inPlace n hk hp hus hf hvs ihus ihvs =>
    obtain ⟨hu, hnvs⟩ := List.forall_mem_cons.mp hn
    obtain ⟨hfs, hr₁⟩ := ihus (fun v hv => hu.of_parts (Parts.of_parts hp) hv) hr
    obtain ⟨hgs, hr₂⟩ := ihvs hnvs hr₁
    have hfinish := wellformed_finish hp hus.length_eq (hu _ .refl) hf hfs
    exact ⟨List.forall_mem_cons.mpr ⟨hfinish, hgs⟩, hr₂⟩
  | known n hk hc hf hvs ihvs =>
    obtain ⟨hgs, hr'⟩ := ihvs (List.forall_mem_cons.mp hn).2 hr
    exact ⟨List.forall_mem_cons.mpr ⟨wellformed_pointer hf, hgs⟩, hr'⟩
  | @defined u us vs fs gs f t key r r₁ r₂ n m hk hc hp hus ht hf hvs ihus ihvs =>
    obtain ⟨hu, hnvs⟩ := List.forall_mem_cons.mp hn
    have hpending : ∀ key' t', (r.insert key .pending).get? key' = some t' →
        Wellformed t' := by
      intro key' t' ht'
      rw [Registry.get?_insert_pending] at ht'
      split at ht'
      · cases ht'
      · exact hr key' t' ht'
    obtain ⟨hfs, hr₁⟩ :=
      ihus (fun v hv => hu.of_definition.of_parts (Parts.of_parts hp) hv) hpending
    have hdefinition := wellformed_finish hp hus.length_eq (hu.of_definition _ .refl) ht hfs
    obtain ⟨hgs, hr₂⟩ := ihvs hnvs fun key' t' ht' => by
      rw [Registry.get?_insert_ready] at ht'
      split at ht'
      · exact Option.some.inj ht' ▸ hdefinition
      · exact hr₁ key' t' ht'
    exact ⟨List.forall_mem_cons.mpr ⟨wellformed_pointer hf, hgs⟩, hr₂⟩

end

/-! ## Documents -/

/-- A well-formed schema has no definitions inside, so all that stands in it is well-formed. -/
theorem Wellformed.position {f t : Object} (h : Wellformed f) (ht : Position f t) :
    Wellformed t := by
  cases ht with
  | subschema hsub => exact h.subschema hsub
  | definition hdefs _ =>
    rw [(h f .refl).get?_defs] at hdefs
    cases hdefs

theorem Wellformed.of_reflTransGen {f t : Object} (h : Wellformed f)
    (ht : Relation.ReflTransGen Position f t) : Wellformed t := by
  induction ht with
  | refl => exact h
  | tail _ hstep ih => exact ih.position hstep

/-- With well-formed definitions, a well-formed fragment makes a well-formed document. -/
theorem wellformedDocument_attachTo {r : Registry} {f : Object} (hr : r.entries.Ordered)
    (hf : Wellformed f) (hdefs : ∀ key t, r.get? key = some t → Wellformed t) :
    WellformedDocument (r.attachTo f) := by
  have hget : ∀ n ∈ shapeKeywords, n ≠ "$defs" → f.get? n = (r.attachTo f).get? n := by
    intro n _ hn
    rw [Registry.get?_attachTo, if_neg]
    rintro ⟨hdefs, _⟩
    exact hn hdefs.symm
  have hdefinition : ∀ key j, r.definitions.get? key = some j →
      ∃ t, r.get? key = some t ∧ j = .object t := by
    intro key j hj
    rw [Registry.get?_definitions hr] at hj
    obtain ⟨t, ht, rfl⟩ := Option.map_eq_some_iff.mp hj
    exact ⟨t, ht, rfl⟩
  constructor
  · intro k j hj
    rw [Registry.get?_attachTo] at hj
    split at hj
    · next hk =>
      cases hj
      refine Or.inr ⟨hk.1.symm, r.definitions, rfl, fun key j hj => ?_⟩
      obtain ⟨t, _, ht⟩ := hdefinition key j hj
      exact ⟨t, ht⟩
    · exact Or.inl ((hf f .refl k j hj).of_get?_eq hget)
  · intro s hs
    obtain ⟨t, hfirst, hs⟩ := Relation.TransGen.head'_iff.mp hs
    suffices ht : Wellformed t from (ht.of_reflTransGen hs) s .refl
    cases hfirst with
    | subschema hsub =>
      exact hf.subschema (hsub.of_get?_eq fun n hn hne => (hget n hn hne).symm)
    | @definition defs key _ hd ht =>
      rw [Registry.get?_attachTo] at hd
      split at hd
      · cases hd
        obtain ⟨t', ht', heq⟩ := hdefinition key _ ht
        cases heq
        exact hdefs key t ht'
      · rw [(hf f .refl).get?_defs] at hd
        cases hd

/-- Every document is in the grammar, at every position where a schema stands. -/
theorem wellformedDocument_of_schemaOf {n : Nat} {d : Descriptor N} {seed : Annotations}
    {doc : Object} (hn : DistinctNames g d) (h : Generator.schemaOf {} g n d seed = .ok doc) :
    WellformedDocument doc := by
  obtain ⟨f, r, hb, rfl⟩ := builds_of_schemaOf h
  obtain ⟨hf, hdefs⟩ := hb.wellformed (List.forall_mem_singleton.mpr hn) fun _ _ ht => by cases ht
  exact wellformedDocument_attachTo (hb.ordered Table.ordered_empty)
    (hf f (List.mem_singleton_self f)) hdefs

theorem wellformedDocument_link : ∃ doc,
    Generator.schemaOf {} linkGraph 3 link [.text .title "list"] = .ok doc ∧
      WellformedDocument doc := by
  obtain ⟨doc, hdoc⟩ : ∃ doc,
      Generator.schemaOf {} linkGraph 3 link [.text .title "list"] = .ok doc := ⟨_, rfl⟩
  exact ⟨doc, hdoc, wellformedDocument_of_schemaOf distinctNames_link hdoc⟩

end TypeSchema
