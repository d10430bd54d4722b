/-
  Which values a schema accepts, constraints included.

  `Validates lang defs t v` takes every keyword of a fragment at its word in draft 2020-12: those
  of shapes, as `Allows` reads them, and the constraints that annotations write. What patterns and
  formats mean is left to a `Dialect`. Acceptance is the least relation with its rule, so one
  unfolding is all that it takes (`validates_object`). Of a fragment that annotations are written
  on, shape and annotations are satisfied apart from each other (`validates_write`), whether it is
  built in place (`validates_finish`) or a pointer (`validates_pointer`).
-/
import Mathlib.Order.FixedPoints
import TypeSchema.Proofs.Acceptance

namespace TypeSchema

variable {N : Type}

/-! ## Constraints -/

/-- What the texts of constraints say of the texts that they constrain. -/
structure Dialect where
  pattern : String → String → Prop
  format : String → String → Prop

/-- The bound `m` lets the number `n` pass, both in the same unit. -/
def Bound.Allows : Bound → Int → Int → Prop
  | multipleOf, m, n => m ∣ n
  | minimum, m, n => m ≤ n
  | maximum, m, n => n ≤ m
  | exclusiveMinimum, m, n => m < n
  | exclusiveMaximum, m, n => n < m

/-- The keyword with the value `j` lets `v` pass. A constraint bears on values of one JSON type
only, and documentation on none. -/
def SiteKeyword.Allows (lang : Dialect) : SiteKeyword → Json → Json → Prop
  | text .pattern, .string p, .string s => lang.pattern p s
  | text .format, .string p, .string s => lang.format p s
  | length .minLength, .number n, .string s => n.scaled ≤ (Number.int s.length).scaled
  | length .maxLength, .number n, .string s => (Number.int s.length).scaled ≤ n.scaled
  | bound t, .number m, .number n => t.Allows m.scaled n.scaled
  | _, _, _ => True

/-- The constraints among the keywords of `s` let `v` pass. -/
def Constrained (lang : Dialect) (s : Object) (v : Json) : Prop :=
  ∀ k : SiteKeyword, ∀ j, s.get? k.name = some j → k.Allows lang j v

/-- What the annotations write under the keywords `ks` lets `v` pass. -/
def Annotations.Satisfied (lang : Dialect) (as : Annotations) (ks : List SiteKeyword)
    (v : Json) : Prop :=
  ∀ k ∈ ks, ∀ j, as.value? k = some j → k.Allows lang j v

/-- No keyword of an annotation is there. -/
def SiteFree (s : Object) : Prop := ∀ k : SiteKeyword, s.get? k.name = none

section

variable {lang : Dialect} {v : Json}

theorem SiteKeyword.allows_null (k : SiteKeyword) (j : Json) : k.Allows lang j .null := by
  cases k with
  | text t => cases t <;> cases j <;> trivial
  | length t => cases t <;> cases j <;> trivial
  | bound t => cases j <;> trivial

theorem SiteKeyword.allows_documentation {k : SiteKeyword} (hk : k ∈ documentation) (j : Json) :
    k.Allows lang j v := by
  simp only [documentation, List.mem_cons, List.not_mem_nil, or_false] at hk
  rcases hk with rfl | rfl | rfl
  · trivial
  · trivial
  · trivial

theorem Annotations.satisfied_null (as : Annotations) (ks : List SiteKeyword) :
    as.Satisfied lang ks .null := fun k _ j _ => k.allows_null j

/-- Documentation constrains nothing. -/
theorem Annotations.satisfied_siteKeywords {as : Annotations} {k : Kind} :
    as.Satisfied lang k.siteKeywords v ↔ as.Satisfied lang k.constraints v := by
  refine ⟨fun h k' hk' => h k' (List.mem_append_right _ hk'), fun h k' hk' => ?_⟩
  rcases List.mem_append.mp hk' with hdoc | hk'
  · exact fun j _ => SiteKeyword.allows_documentation hdoc j
  · exact h k' hk'

theorem Annotations.satisfied_ownKeywords {as : Annotations} {k : Kind} :
    as.Satisfied lang k.ownKeywords v ↔ as.Satisfied lang k.constraints v := by
  cases k with
  | marker => exact Iff.rfl
  | _ => exact satisfied_siteKeywords

/-- Written on a fragment that has none, the constraints are those of the annotations. -/
theorem constrained_write {s : Object} (hs : SiteFree s) (as : Annotations)
    (ks : List SiteKeyword) :
    Constrained lang (as.write ks s) v ↔ as.Satisfied lang ks v := by
  constructor
  · intro h k hk j hj
    refine h k j ?_
    rw [as.get?_write_of_mem s hk, hj]
    rfl
  · intro h k j hj
    by_cases hk : k ∈ ks
    · rw [as.get?_write_of_mem s hk, hs k, Option.or_none] at hj
      exact h k hk j hj
    · have hne : ∀ k' ∈ ks, k'.name ≠ k.name := fun k' hk' hname =>
        hk (SiteKeyword.name_injective hname ▸ hk')
      rw [as.get?_write_of_not_mem s hne, hs k] at hj
      cases hj

theorem SiteFree.constrained {s : Object} (h : SiteFree s) : Constrained lang s v := by
  intro k j hj
  rw [h k] at hj
  cases hj

theorem SiteFree.of_shapeKeywords {s : Object}
    (h : ∀ n, n ∉ shapeKeywords → s.get? n = none) : SiteFree s :=
  fun _ => h _ fun hn => name_ne_of_mem_shape hn rfl

theorem siteFree_ofList {es : List (String × Json)} (h : ∀ e ∈ es, e.1 ∈ shapeKeywords) :
    SiteFree (Table.ofList es) := by
  refine .of_shapeKeywords fun n hn => ?_
  cases hget : (Table.ofList es).get? n with
  | none => rfl
  | some j => exact absurd (h _ (Table.mem_of_get?_ofList hget)) hn

theorem siteFree_reference (key : String) (nullable : Bool) :
    SiteFree (reference key nullable) := by
  cases nullable with
  | false => exact siteFree_ofList (by simp [shapeKeywords])
  | true => exact siteFree_ofList (by simp [shapeKeywords])

/-- A shape has keywords of shapes only. -/
theorem Descriptor.siteFree_shape (d : Descriptor N) (us : List (Use N)) (fs : List Object) :
    SiteFree (d.shape us fs) := by
  refine .of_shapeKeywords fun n hn => ?_
  have hinsert : ∀ (s : Object) m w, m ∈ shapeKeywords → s.get? n = none →
      (s.insert m w).get? n = none := by
    intro s m w hm hs
    have hne : m ≠ n := fun heq => hn (heq ▸ hm)
    rw [Table.get?_insert_of_ne s w hne, hs]
  have hempty : (Table.empty : Object).get? n = none := rfl
  have hfold : ∀ m (s : Object), m ∈ shapeKeywords → s.get? n = none →
      (fs.foldl (fun s f => s.insert m (.object f)) s).get? n = none := by
    intro m s hm hs
    induction fs generalizing s with
    | nil => exact hs
    | cons f fs ih => exact ih _ (hinsert _ _ _ hm hs)
  unfold shape
  cases d.kind with
  | record =>
    show (d.writeRequired _).get? n = none
    unfold writeRequired
    split
    · exact hinsert _ _ _ (by decide) (hinsert _ _ _ (by decide) hempty)
    · exact hinsert _ _ _ (by decide)
        (hinsert _ _ _ (by decide) (hinsert _ _ _ (by decide) hempty))
  | list => exact hfold _ _ (by decide) (hinsert _ _ _ (by decide) hempty)
  | map => exact hfold _ _ (by decide) (hinsert _ _ _ (by decide) hempty)
  | primitive p => exact hinsert _ _ _ (by decide) hempty
  | enumeration => exact hinsert _ _ _ (by decide) hempty
  | polymorphic h => exact hinsert _ _ _ (by decide) hempty
  | marker => rfl
  | contextual => rfl
  | wrapper => rfl

end

/-! ## Acceptance -/

/-- A schema is `true`, or an object all of whose keywords let the value pass, if `R` says which
subschemas accept which values. -/
def validator (lang : Dialect) (defs : String → Option Object) :
    (Json → Json → Prop) →o (Json → Json → Prop) where
  toFun R t v := t = .bool true ∨
    ∃ s, t = .object s ∧ Allows defs R s v ∧ Constrained lang s v
  monotone' R R' hR t v h := by
    rcases h with ht | ⟨s, hs, hallows, hconstrained⟩
    · exact Or.inl ht
    · exact Or.inr ⟨s, hs, hallows.mono fun t w => hR t w, hconstrained⟩

/-- The values that a schema accepts. -/
def Validates (lang : Dialect) (defs : String → Option Object) : Json → Json → Prop :=
  OrderHom.lfp (validator lang defs)

section

variable {lang : Dialect} {defs : String → Option Object} {s : Object} {v : Json}

theorem validates_object : Validates lang defs (.object s) v ↔
    Allows defs (Validates lang defs) s v ∧ Constrained lang s v := by
  have hfixed : validator lang defs (Validates lang defs) (.object s) v ↔
      Validates lang defs (.object s) v :=
    iff_of_eq (congrFun (congrFun (OrderHom.map_lfp (validator lang defs)) _) _)
  rw [← hfixed]
  constructor
  · rintro (h | ⟨s', hs', h⟩)
    · cases h
    · cases hs'
      exact h
  · exact fun h => Or.inr ⟨s, rfl, h⟩

theorem SiteFree.validates_iff (h : SiteFree s) :
    Validates lang defs (.object s) v ↔ Allows defs (Validates lang defs) s v := by
  rw [validates_object]
  exact and_iff_left h.constrained

theorem validates_write (hs : SiteFree s) (as : Annotations) (ks : List SiteKeyword) :
    Validates lang defs (.object (as.write ks s)) v ↔
      Allows defs (Validates lang defs) s v ∧ as.Satisfied lang ks v := by
  rw [validates_object, (SameShape.write as ks s).allows_iff, constrained_write hs]

/-! ## Fixed fragments -/

theorem validates_nullFragment : Validates lang defs (.object nullFragment) v ↔ v = .null := by
  have hfree : SiteFree nullFragment := siteFree_ofList (by simp [shapeKeywords])
  have htype : TypeAllows v (.string "null") ↔ v = .null := typeAllows_string.trans ofType_null
  rw [hfree.validates_iff, allows_iff]
  simpa [get?_nullFragment] using htype

theorem validates_literal {name : String} :
    Validates lang defs (.object (literal name)) v ↔ v = .string name := by
  have hfree : SiteFree (literal name) := siteFree_ofList (by simp [shapeKeywords])
  rw [hfree.validates_iff, allows_iff]
  simp [get?_literal, Json.strings, Json.same_string]

/-- A tag wants its name in the discriminator of an object, and nothing of other values. -/
theorem validates_tag (discriminator name : String) :
    Validates lang defs (.object (Context.tag discriminator name)) v ↔
      ∀ ms, v = .object ms → ms.get? discriminator = some (.string name) := by
  have hfree : SiteFree (Context.tag discriminator name) :=
    siteFree_ofList (by simp [shapeKeywords])
  have hproperty : ∀ k, (Table.ofList [(discriminator, Json.object (literal name))]).get? k =
      if discriminator = k then some (.object (literal name)) else none :=
    fun k => Table.get?_ofList_singleton _ k _
  rw [hfree.validates_iff, allows_iff]
  simp only [get?_tagUnder, Json.ofEntries, Json.strings]
  constructor
  · rintro ⟨-, -, hproperties, hrequired, -⟩ ms hv
    have hsome := hrequired _ rfl ms hv discriminator (by simp)
    obtain ⟨w, hw⟩ := Option.isSome_iff_exists.mp hsome
    have hw' := hproperties _ rfl ms hv discriminator _ w
      ((hproperty discriminator).trans (if_pos rfl)) hw
    rw [hw, validates_literal.mp hw']
  · intro h
    refine ⟨by simp, by simp, ?_, ?_, by simp, by simp, by simp, by simp, by simp⟩
    · intro ps hps ms hv k t w ht hw
      cases hps
      rw [hproperty] at ht
      split at ht
      · next hk =>
        cases ht
        rw [← hk, h ms hv] at hw
        cases hw
        exact validates_literal.mpr rfl
      · cases ht
    · intro names hnames ms hv k hk
      cases hnames
      obtain rfl : k = discriminator := by simpa using hk
      rw [h ms hv]
      rfl

theorem validates_taggedWith {discriminator name : String} {body : Object} :
    Validates lang defs (.object (taggedWith discriminator name body)) v ↔
      Validates lang defs (.object body) v ∧
        ∀ ms, v = .object ms → ms.get? discriminator = some (.string name) := by
  have hfree : SiteFree (taggedWith discriminator name body) :=
    siteFree_ofList (by simp [shapeKeywords])
  have hallows : Allows defs (Validates lang defs) (taggedWith discriminator name body) v ↔
      Validates lang defs (.object body) v ∧
        Validates lang defs (.object (Context.tag discriminator name)) v := by
    simp [allows_iff, get?_taggedWith]
  rw [hfree.validates_iff, hallows, validates_tag]

theorem validates_taggedVariant {name : String} {body : Object} :
    Validates lang defs (.object (taggedVariant name body)) v ↔
      Validates lang defs (.object body) v ∧
        ∀ ms, v = .object ms → ms.get? "type" = some (.string name) :=
  validates_taggedWith

/-- A nullable pointer accepts `null` besides what its definition does. -/
theorem validates_reference (key : String) (nullable : Bool) :
    Allows defs (Validates lang defs) (reference key nullable) v ↔
      (nullable = true ∧ v = .null) ∨
        ∃ t, defs key = some t ∧ Validates lang defs (.object t) v := by
  have hfree : SiteFree (pointer key) := siteFree_reference key false
  rw [allows_reference]
  cases nullable with
  | false => simp
  | true =>
    rw [if_pos rfl, validates_nullFragment, hfree.validates_iff, allows_pointer]
    simp

end

/-! ## Fragments of uses -/

section

variable {lang : Dialect} {defs : String → Option Object} {g : Graph N} {u : Use N}
  {us : List (Use N)} {fs : List Object} {f : Object} {v : Json}

/-- What is built in place accepts the values of its shape that satisfy all annotations. -/
theorem validates_finish (hk : u.descriptor.kind ≠ .wrapper) (hf : u.finish us fs = .ok f) :
    Validates lang defs (.object f) v ↔
      Allows defs (Validates lang defs) (u.descriptor.shape us fs) v ∧
        (u.inherited ++ u.descriptor.annotations).Satisfied lang u.descriptor.kind.constraints
          v := by
  rw [Use.finish_eq_descriptor hk, Descriptor.finish_eq_ok] at hf
  obtain ⟨_, rfl⟩ := hf
  rw [validates_write (u.descriptor.siteFree_shape us fs), Annotations.satisfied_ownKeywords]

/-- A pointer accepts what its definition does, if the annotations beside it are satisfied as
well. -/
theorem validates_pointer {n : Nat} {key : String} {target : Descriptor N}
    (htarget : u.target g n = .ok target) (hf : u.pointer g n key = .ok f) :
    Validates lang defs (.object f) v ↔
      ((u.descriptor.nullable = true ∧ v = .null) ∨
        ∃ t, defs key = some t ∧ Validates lang defs (.object t) v) ∧
        u.inherited.Satisfied lang target.kind.constraints v := by
  obtain ⟨target', htarget', rfl⟩ := Use.pointer_eq_ok hf
  obtain rfl := Except.ok.inj (htarget.symm.trans htarget')
  rw [validates_write (siteFree_reference _ _), validates_reference,
    Annotations.satisfied_siteKeywords]

/-- The keywords of a document are those of its fragment, next to its definitions. -/
theorem validates_attachTo {r : Registry} :
    Validates lang defs (.object (r.attachTo f)) v ↔ Validates lang defs (.object f) v := by
  have hget : ∀ n, n ≠ "$defs" → (r.attachTo f).get? n = f.get? n := by
    intro n hn
    rw [Registry.get?_attachTo, if_neg]
    rintro ⟨hdefs, _⟩
    exact hn hdefs.symm
  have hconstrained : Constrained lang (r.attachTo f) v ↔ Constrained lang f v := by
    refine forall_congr' fun k => ?_
    rw [hget k.name (name_ne_of_mem_shape (by decide))]
  have hallows : Allows defs (Validates lang defs) (r.attachTo f) v ↔
      Allows defs (Validates lang defs) f v :=
    ⟨fun h => h.of_get?_eq fun n _ hd => hget n hd,
      fun h => h.of_get?_eq fun n _ hd => (hget n hd).symm⟩
  rw [validates_object, validates_object, hallows, hconstrained]

end

end TypeSchema
