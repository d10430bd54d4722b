/-
  Where schemas stand in a fragment.

  `Subschema s t` says that the object `t` stands at a schema position right inside `s`, and
  `Within s t` that it stands at one of any depth. A finished fragment adds no pointer and no
  definition of its own: such keywords only occur within the fragments of its parts
  (`Use.within_finish`), and all of those it contains (`Use.finish_within`).
-/
import TypeSchema.Proofs.Reach

namespace TypeSchema

variable {N : Type} {g : Graph N}

/-- One step from a schema to a schema inside it, definitions left out. -/
inductive Subschema (s : Object) : Object → Prop
  | property {ps : Object} {k : String} {t : Object} :
    s.get? "properties" = some (.object ps) → ps.get? k = some (.object t) → Subschema s t
  | items {t : Object} : s.get? "items" = some (.object t) → Subschema s t
  | additional {t : Object} : s.get? "additionalProperties" = some (.object t) → Subschema s t
  | anyOf {js : List Json} {t : Object} :
    s.get? "anyOf" = some (.array js) → .object t ∈ js → Subschema s t
  | allOf {js : List Json} {t : Object} :
    s.get? "allOf" = some (.array js) → .object t ∈ js → Subschema s t

def Within : Object → Object → Prop := Relation.ReflTransGen Subschema

/-- Neither a pointer nor the place of definitions. -/
structure Plain (s : Object) : Prop where
  ref : s.get? "$ref" = none
  defs : s.get? "$defs" = none

theorem Subschema.of_get?_eq {s s' t : Object}
    (h : ∀ n ∈ shapeKeywords, n ≠ "$defs" → s.get? n = s'.get? n)
    (ht : Subschema s t) : Subschema s' t := by
  cases ht with
  | property hs hps => exact .property ((h _ (by decide) (by decide)).symm.trans hs) hps
  | items hs => exact .items ((h _ (by decide) (by decide)).symm.trans hs)
  | additional hs => exact .additional ((h _ (by decide) (by decide)).symm.trans hs)
  | anyOf hs hmem => exact .anyOf ((h _ (by decide) (by decide)).symm.trans hs) hmem
  | allOf hs hmem => exact .allOf ((h _ (by decide) (by decide)).symm.trans hs) hmem

theorem Subschema.of_sameShape {s s' t : Object} (h : SameShape s s') (ht : Subschema s t) :
    Subschema s' t := ht.of_get?_eq fun n hn _ => h n hn

theorem Plain.of_sameShape {s s' : Object} (h : SameShape s s') (hs : Plain s) : Plain s' :=
  ⟨(h _ (by decide)).symm.trans hs.ref, (h _ (by decide)).symm.trans hs.defs⟩

/-! ## Fixed fragments -/

/-- The name of a variant, as the only value of its discriminator. -/
def literal (name : String) : Object := Table.ofList [("enum", Json.strings [name])]

theorem tag_eq (name : String) : Context.tag Context.defaultDiscriminator name =
    Table.ofList [("properties", Json.ofEntries [("type", .object (literal name))]),
      ("required", Json.strings ["type"])] := rfl

theorem get?_pointer (key n : String) :
    (pointer key).get? n = if "$ref" = n then some (.string ("#/$defs/" ++ key)) else none :=
  Table.get?_ofList_singleton _ n _

theorem get?_nullFragment (n : String) :
    nullFragment.get? n = if "type" = n then some (.string "null") else none :=
  Table.get?_ofList_singleton _ n _

theorem get?_literal (name n : String) :
    (literal name).get? n = if "enum" = n then some (Json.strings [name]) else none :=
  Table.get?_ofList_singleton _ n _

theorem get?_tagUnder (discriminator name n : String) :
    (Context.tag discriminator name).get? n =
      if "properties" = n then some (Json.ofEntries [(discriminator, .object (literal name))])
      else if "required" = n then some (Json.strings [discriminator]) else none := by
  unfold Context.tag
  rw [Table.get?_ofList (by simp)]
  rfl

theorem get?_tag (name n : String) :
    (Context.tag Context.defaultDiscriminator name).get? n =
      if "properties" = n then some (Json.ofEntries [("type", .object (literal name))])
      else if "required" = n then some (Json.strings ["type"]) else none :=
  get?_tagUnder _ name n

theorem get?_taggedWith (discriminator name : String) (body : Object) (n : String) :
    (taggedWith discriminator name body).get? n = if "allOf" = n then
      some (.array [.object body, .object (Context.tag discriminator name)]) else none :=
  Table.get?_ofList_singleton _ n _

theorem get?_taggedVariant (name : String) (body : Object) (n : String) :
    (taggedVariant name body).get? n = if "allOf" = n then
      some (.array [.object body, .object (Context.tag Context.defaultDiscriminator name)])
      else none :=
  get?_taggedWith _ name body n

theorem get?_reference (key : String) (nullable : Bool) (n : String) :
    (reference key nullable).get? n =
      if nullable then
        if "anyOf" = n then some (.array [.object nullFragment, .object (pointer key)]) else none
      else if "$ref" = n then some (.string ("#/$defs/" ++ key)) else none := by
  cases nullable with
  | false => exact get?_pointer key n
  | true => exact Table.get?_ofList_singleton _ n _

/-! ## Positions of fixed fragments -/

theorem Within.cases {s t : Object} (h : Within s t) :
    t = s ∨ ∃ s', Subschema s s' ∧ Within s' t := by
  rcases Relation.ReflTransGen.cases_head h with h | ⟨s', hs, hs'⟩
  · exact Or.inl h.symm
  · exact Or.inr ⟨s', hs, hs'⟩

theorem plain_nullFragment : Plain nullFragment :=
  ⟨by rw [get?_nullFragment]; rfl, by rw [get?_nullFragment]; rfl⟩

theorem plain_literal (name : String) : Plain (literal name) :=
  ⟨by rw [get?_literal]; rfl, by rw [get?_literal]; rfl⟩

theorem plain_tag (name : String) : Plain (Context.tag Context.defaultDiscriminator name) :=
  ⟨by rw [get?_tag]; rfl, by rw [get?_tag]; rfl⟩

theorem plain_taggedVariant (name : String) (body : Object) : Plain (taggedVariant name body) :=
  ⟨by rw [get?_taggedVariant]; rfl, by rw [get?_taggedVariant]; rfl⟩

theorem not_subschema_nullFragment (t : Object) : ¬ Subschema nullFragment t := by
  intro h
  cases h <;> simp_all [get?_nullFragment]

theorem not_subschema_literal (name : String) (t : Object) : ¬ Subschema (literal name) t := by
  intro h
  cases h <;> simp_all [get?_literal]

theorem subschema_tag {name : String} {t : Object}
    (h : Subschema (Context.tag Context.defaultDiscriminator name) t) : t = literal name := by
  cases h with
  | property hs hps =>
    rw [get?_tag, if_pos rfl] at hs
    cases hs
    have hmem := Table.mem_of_get?_ofList hps
    simp only [List.mem_singleton, Prod.mk.injEq, Json.object.injEq] at hmem
    exact hmem.2
  | items hs => simp [get?_tag] at hs
  | additional hs => simp [get?_tag] at hs
  | anyOf hs hmem => simp [get?_tag] at hs
  | allOf hs hmem => simp [get?_tag] at hs

theorem subschema_taggedVariant {name : String} {body t : Object}
    (h : Subschema (taggedVariant name body) t) :
    t = body ∨ t = Context.tag Context.defaultDiscriminator name := by
  cases h with
  | property hs hps => simp [get?_taggedVariant] at hs
  | items hs => simp [get?_taggedVariant] at hs
  | additional hs => simp [get?_taggedVariant] at hs
  | anyOf hs hmem => simp [get?_taggedVariant] at hs
  | allOf hs hmem =>
    rw [get?_taggedVariant, if_pos rfl] at hs
    cases hs
    simpa using hmem

theorem within_nullFragment {t : Object} (h : Within nullFragment t) : Plain t := by
  rcases h.cases with rfl | ⟨s, hs, _⟩
  · exact plain_nullFragment
  · exact absurd hs (not_subschema_nullFragment s)

theorem within_tag {name : String} {t : Object}
    (h : Within (Context.tag Context.defaultDiscriminator name) t) : Plain t := by
  rcases h.cases with rfl | ⟨s, hs, h⟩
  · exact plain_tag name
  · rw [subschema_tag hs] at h
    rcases h.cases with rfl | ⟨s, hs, _⟩
    · exact plain_literal name
    · exact absurd hs (not_subschema_literal name s)

theorem within_taggedVariant {name : String} {body t : Object}
    (h : Within (taggedVariant name body) t) : Plain t ∨ Within body t := by
  rcases h.cases with rfl | ⟨s, hs, h⟩
  · exact Or.inl (plain_taggedVariant name body)
  · rcases subschema_taggedVariant hs with hs | hs
    · exact Or.inr (hs ▸ h)
    · exact Or.inl (within_tag (hs ▸ h))

theorem subschema_taggedVariant_body (name : String) (body : Object) :
    Subschema (taggedVariant name body) body := by
  refine .allOf (get?_taggedVariant name body "allOf") ?_
  exact List.mem_cons_self

/-! ## Positions of finished fragments -/

theorem plain_iff {s : Object} : Plain s ↔ s.get? "$ref" = none ∧ s.get? "$defs" = none :=
  ⟨fun h => ⟨h.ref, h.defs⟩, fun h => ⟨h.1, h.2⟩⟩

theorem plain_shape (d : Descriptor N) (us : List (Use N)) (fs : List Object) :
    Plain (d.shape us fs) := by
  have hfold : ∀ k, k ≠ "$ref" → k ≠ "$defs" → ∀ s, Plain s →
      Plain (fs.foldl (fun s f => s.insert k (.object f)) s) := by
    intro k href hdefs
    induction fs with
    | nil => exact fun s hs => hs
    | cons f fs ih =>
      intro s hs
      refine ih _ ⟨?_, ?_⟩
      · rw [Table.get?_insert_of_ne _ _ href]
        exact hs.ref
      · rw [Table.get?_insert_of_ne _ _ hdefs]
        exact hs.defs
  have htyped : ∀ v, Plain (Table.empty.insert "type" v) := fun v => ⟨rfl, rfl⟩
  cases hk : d.kind with
  | primitive p => simp [plain_iff, Descriptor.get?_shape_primitive _ _ hk]
  | enumeration => simp [plain_iff, Descriptor.get?_shape_enumeration _ _ hk]
  | marker => simp [plain_iff, Descriptor.get?_shape_marker _ _ hk]
  | record => simp [plain_iff, Descriptor.get?_shape_record _ _ hk]
  | list =>
    unfold Descriptor.shape
    rw [hk]
    exact hfold "items" (by decide) (by decide) _ (htyped _)
  | map =>
    unfold Descriptor.shape
    rw [hk]
    exact hfold "additionalProperties" (by decide) (by decide) _ (htyped _)
  | polymorphic h => simp [plain_iff, Descriptor.get?_shape_polymorphic _ _ hk]
  | contextual => unfold Descriptor.shape; rw [hk]; exact ⟨rfl, rfl⟩
  | wrapper => unfold Descriptor.shape; rw [hk]; exact ⟨rfl, rfl⟩

/-- A schema right inside a fragment belongs to one of its parts, or is a fixed one. -/
theorem subschema_shape {u : Use N} {us : List (Use N)} {fs : List Object} {t : Object}
    (hp : Parts g u us) (hlen : us.length = fs.length) (hk : u.descriptor.kind ≠ .wrapper)
    (ht : Subschema (u.descriptor.shape us fs) t) :
    t ∈ fs ∨ t = nullFragment ∨ ∃ name, ∃ f ∈ fs, t = taggedVariant name f := by
  cases hp with
  | primitive p hk => cases ht <;> simp_all [Descriptor.get?_shape_primitive]
  | enumeration hk => cases ht <;> simp_all [Descriptor.get?_shape_enumeration]
  | marker hk => cases ht <;> simp_all [Descriptor.get?_shape_marker]
  | record hk =>
    cases ht with
    | property hs hps =>
      rw [Descriptor.get?_shape_record _ _ hk, if_neg (by simp), if_pos rfl] at hs
      cases hs
      obtain ⟨p, hp, heq⟩ := mem_zipWith.mp (Table.mem_of_get?_ofList hps)
      cases heq
      exact Or.inl (List.of_mem_zip hp).2
    | items hs => simp [Descriptor.get?_shape_record _ _ hk] at hs
    | additional hs => simp [Descriptor.get?_shape_record _ _ hk] at hs
    | anyOf hs hmem => simp [Descriptor.get?_shape_record _ _ hk] at hs
    | allOf hs hmem => simp [Descriptor.get?_shape_record _ _ hk] at hs
  | list item hk hes =>
    obtain ⟨f, rfl⟩ := List.length_eq_one_iff.mp hlen.symm
    cases ht with
    | property hs hps => simp [Descriptor.get?_shape_list _ hk] at hs
    | items hs =>
      rw [Descriptor.get?_shape_list _ hk, if_pos rfl] at hs
      cases hs
      exact Or.inl (List.mem_singleton_self _)
    | additional hs => simp [Descriptor.get?_shape_list _ hk] at hs
    | anyOf hs hmem => simp [Descriptor.get?_shape_list _ hk] at hs
    | allOf hs hmem => simp [Descriptor.get?_shape_list _ hk] at hs
  | map key value hk hes =>
    obtain ⟨f, rfl⟩ := List.length_eq_one_iff.mp hlen.symm
    cases ht with
    | property hs hps => simp [Descriptor.get?_shape_map _ hk] at hs
    | items hs => simp [Descriptor.get?_shape_map _ hk] at hs
    | additional hs =>
      rw [Descriptor.get?_shape_map _ hk, if_pos rfl] at hs
      cases hs
      exact Or.inl (List.mem_singleton_self _)
    | anyOf hs hmem => simp [Descriptor.get?_shape_map _ hk] at hs
    | allOf hs hmem => simp [Descriptor.get?_shape_map _ hk] at hs
  | polymorphic h hk =>
    cases ht with
    | property hs hps => simp [Descriptor.get?_shape_polymorphic _ _ hk] at hs
    | items hs => simp [Descriptor.get?_shape_polymorphic _ _ hk] at hs
    | additional hs => simp [Descriptor.get?_shape_polymorphic _ _ hk] at hs
    | anyOf hs hmem =>
      rw [Descriptor.get?_shape_polymorphic _ _ hk, if_pos rfl] at hs
      cases hs
      obtain ⟨s, hs, hst⟩ := List.mem_map.mp hmem
      cases hst
      rcases List.mem_append.mp hs with hs | hs
      · split at hs
        · exact Or.inr (Or.inl (List.mem_singleton.mp hs))
        · cases hs
      · obtain ⟨p, hp, heq⟩ := mem_zipWith.mp hs
        exact Or.inr (Or.inr ⟨_, p.2, (List.of_mem_zip hp).2, heq.symm⟩)
    | allOf hs hmem => simp [Descriptor.get?_shape_polymorphic _ _ hk] at hs
  | wrapper value hkw hes => exact absurd hkw hk

/-- Every fragment of a part stands in the schemas right inside the shape. -/
theorem shape_within {u : Use N} {us : List (Use N)} {fs : List Object} {f : Object}
    (hp : Parts g u us) (hlen : us.length = fs.length) (hk : u.descriptor.kind ≠ .wrapper)
    (hn : u.descriptor.kind = .record → u.descriptor.elementNames.Nodup) (hf : f ∈ fs) :
    ∃ s, Subschema (u.descriptor.shape us fs) s ∧ Within s f := by
  cases hp with
  | primitive p hk => obtain rfl := List.length_eq_zero_iff.mp hlen.symm; cases hf
  | enumeration hk => obtain rfl := List.length_eq_zero_iff.mp hlen.symm; cases hf
  | marker hk => obtain rfl := List.length_eq_zero_iff.mp hlen.symm; cases hf
  | record hk =>
    have hlen' : u.descriptor.elements.length = fs.length := by rw [← hlen, List.length_map]
    obtain ⟨e, hp⟩ := exists_mem_zip_of_right hlen' hf
    have hproperty := Descriptor.get?_properties hlen' (hn hk) hp
    exact ⟨f, .property (Descriptor.get?_shape_record _ _ hk "properties") hproperty, .refl⟩
  | list item hk hes =>
    obtain ⟨f', rfl⟩ := List.length_eq_one_iff.mp hlen.symm
    obtain rfl := List.mem_singleton.mp hf
    refine ⟨f, .items ?_, .refl⟩
    rw [Descriptor.get?_shape_list _ hk, if_pos rfl]
  | map key value hk hes =>
    obtain ⟨f', rfl⟩ := List.length_eq_one_iff.mp hlen.symm
    obtain rfl := List.mem_singleton.mp hf
    refine ⟨f, .additional ?_, .refl⟩
    rw [Descriptor.get?_shape_map _ hk, if_pos rfl]
  | polymorphic h hk =>
    obtain ⟨v, hp⟩ := exists_mem_zip_of_right hlen hf
    refine ⟨taggedVariant v.descriptor.variantName f, ?_,
      .single (subschema_taggedVariant_body _ f)⟩
    refine .anyOf ((Descriptor.get?_shape_polymorphic _ _ hk _).trans (if_pos rfl)) ?_
    refine List.mem_map_of_mem (List.mem_append_right _ ?_)
    exact mem_zipWith.mpr ⟨(v, f), hp, rfl⟩
  | wrapper value hkw hes => exact absurd hkw hk

namespace Use

variable {u : Use N} {us : List (Use N)} {fs : List Object} {f : Object}

/-- What stands in a finished fragment is plain, or stands in the fragment of a part. -/
theorem within_finish (hp : Parts g u us) (hlen : us.length = fs.length)
    (hf : u.finish us fs = .ok f) {t : Object} (ht : Within f t) :
    Plain t ∨ ∃ f' ∈ fs, Within f' t := by
  by_cases hk : u.descriptor.kind = .wrapper
  · cases hp with
    | wrapper value _ hes =>
      obtain ⟨f', rfl⟩ := List.length_eq_one_iff.mp hlen.symm
      rw [finish_wrapper hk hf] at ht
      exact Or.inr ⟨f', List.mem_singleton_self f', ht⟩
    | _ => simp_all
  · have hshape := sameShape_finish hk hf
    rcases ht.cases with rfl | ⟨s, hs, ht⟩
    · exact Or.inl ((plain_shape _ us fs).of_sameShape hshape.symm)
    · have hs' := subschema_shape hp hlen hk (hs.of_sameShape hshape)
      rcases hs' with hs | rfl | ⟨name, f', hf', rfl⟩
      · exact Or.inr ⟨s, hs, ht⟩
      · exact Or.inl (within_nullFragment ht)
      · exact (within_taggedVariant ht).imp_right fun ht => ⟨f', hf', ht⟩

/-- The fragments of the parts stand in the finished one. -/
theorem finish_within (hp : Parts g u us) (hlen : us.length = fs.length)
    (hn : u.descriptor.kind = .record → u.descriptor.elementNames.Nodup)
    (hf : u.finish us fs = .ok f) {f' : Object} (hf' : f' ∈ fs) : Within f f' := by
  by_cases hk : u.descriptor.kind = .wrapper
  · cases hp with
    | wrapper value _ hes =>
      obtain ⟨f₁, rfl⟩ := List.length_eq_one_iff.mp hlen.symm
      rw [finish_wrapper hk hf, List.mem_singleton.mp hf']
      exact .refl
    | _ => simp_all
  · have hshape := sameShape_finish hk hf
    obtain ⟨s, hs, ht⟩ := shape_within hp hlen hk hn hf'
    exact .head (hs.of_sameShape hshape.symm) ht

end Use

end TypeSchema
