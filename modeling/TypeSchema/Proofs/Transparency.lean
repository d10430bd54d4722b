/-
  Pointers as a mere device for sharing.

  Taking all requests for definitions out of a graph gives the same schema as putting the
  definitions of the original one back where the pointers to them stand (`expand_schemaOf`). The
  proof goes along the graph, which must not lead back to where it came from: the definition that
  a pointer leads to expands to what is built in place for the bare type, and the law of
  `Inline.relax` says that this place adds to it what stands beside the pointer.
-/
import TypeSchema.Proofs.Expansion
import TypeSchema.Proofs.Sharing

namespace TypeSchema

variable {N : Type} {g : Graph N}

/-- What is asked of a graph and of the places where its definitions are used. -/
structure Shareable (g : Graph N) (root : Use N) : Prop where
  /-- No type contains itself. -/
  acyclic : ∀ x, Reaches g root.descriptor x → ¬ Relation.TransGen (Child g) x x
  oneTypePerKey : OneTypePerKey g root
  /-- No bound is given as a double beside a pointer. -/
  doubleFree : ∀ u key, Meets g root u → u.key? = some key → u.inherited.DoubleFree
  /-- No documentation is given beside a pointer to a marker. -/
  undocumented : ∀ u key, Meets g root u → u.key? = some key →
    InnerKind g u.descriptor .marker → u.inherited.Undocumented

/-- Any fragment of the use expands to the one that is built in place without requests. -/
def Transparent (g : Graph N) (defs : String → Option Object) (u : Use N) : Prop :=
  ∀ f, Fragments g [u] [f] →
    ∃ f', Inline g.withoutRefs [u.withoutRefs] [f'] ∧ Expands defs f f'

/-! ## Ordered fragments -/

theorem Inline.ordered {us : List (Use N)} {fs : List Object} (h : Inline g us fs) :
    ∀ f ∈ fs, f.Ordered := by
  induction h with
  | nil => exact fun f hf => absurd hf List.not_mem_nil
  | cons n hp hus hf _ ihus ihvs =>
    have hordered := Use.ordered_finish (Parts.of_parts hp) hus.length_eq hf ihus
    exact List.forall_mem_cons.mpr ⟨hordered, ihvs⟩

theorem Fragments.ordered {us : List (Use N)} {fs : List Object} (h : Fragments g us fs) :
    ∀ f ∈ fs, f.Ordered := by
  induction h with
  | nil => exact fun f hf => absurd hf List.not_mem_nil
  | inPlace n _ hp hus hf _ ihus ihvs =>
    have hordered := Use.ordered_finish (Parts.of_parts hp) hus.length_eq hf ihus
    exact List.forall_mem_cons.mpr ⟨hordered, ihvs⟩
  | pointer n _ hf _ ihvs => exact List.forall_mem_cons.mpr ⟨Use.ordered_pointer hf, ihvs⟩

/-! ## One use -/

variable {defs : String → Option Object}

theorem Annotations.DoubleFree.withoutRefs {as : Annotations} (h : as.DoubleFree) :
    as.withoutRefs.DoubleFree := fun t x hx => h t x (List.mem_filter.mp hx).1

theorem Annotations.Undocumented.withoutRefs {as : Annotations} (h : as.Undocumented) :
    as.withoutRefs.Undocumented := by
  intro t ht
  rw [text?_withoutRefs]
  exact h t ht

/-- A pointer is transparent if the definition it leads to is. -/
theorem exists_inline_of_pointer {u : Use N} {n : Nat} {key : String} {f t t' : Object}
    (hf : u.pointer g n key = .ok f) (hdouble : u.inherited.DoubleFree)
    (hmarker : InnerKind g u.descriptor .marker → u.inherited.Undocumented)
    (ht : defs key = some t) (ht' : Inline g.withoutRefs [u.definition.withoutRefs] [t'])
    (hexpands : Expands defs t t') :
    ∃ f', Inline g.withoutRefs [u.withoutRefs] [f'] ∧ Expands defs f f' := by
  obtain ⟨target, htarget, rfl⟩ := Use.pointer_eq_ok hf
  have hkind := innerKind_of_target htarget
  have hkind' : InnerKind g.withoutRefs u.descriptor.nonNullable.withoutRefs target.kind :=
    (hkind.of_outline u.descriptor.outline_nonNullable.symm).withoutRefs
  have hordered : t'.Ordered := ht'.ordered t' (List.mem_singleton_self t')
  rw [Use.withoutRefs_definition] at ht'
  have hinline := ht'.relax (relaxes_nonNullable u.descriptor) hdouble.withoutRefs hkind'
    fun hk => (hmarker (hk ▸ hkind)).withoutRefs
  rw [List.append_nil, Annotations.write_withoutRefs] at hinline
  exact ⟨_, hinline, expands_reference ht hexpands hordered _ _ _⟩

/-! ## All uses -/

/-- Every use that is met is transparent. -/
theorem Shareable.transparent {root : Use N} {r : Registry} {S : List (Use N)}
    (hs : Shareable g root) (hS : Visits g {} r [root] S)
    (hdefs : ∀ key, defs key = r.get? key) {u : Use N} (hu : Meets g root u) :
    Transparent g defs u := by
  have hcongruent : Congruent g (Expands defs) := fun _ _ _ _ _ hp hlen hf h =>
    Use.expands_finish hp hlen hf h
  refine hasInline_of_meets hs.acyclic hs.oneTypePerKey hS hcongruent ?_ hu
  intro u n key f t t' hu hk hf ht ht' hexpands
  exact exists_inline_of_pointer hf (hs.doubleFree u key hu hk) (hs.undocumented u key hu hk)
    ((hdefs key).trans ht) ht' hexpands

/-! ## Documents -/

theorem erase_attachTo (r : Registry) {f : Object} (hf : f.Ordered)
    (hdefs : f.get? "$defs" = none) : (r.attachTo f).erase "$defs" = f := by
  have hordered : (r.attachTo f).Ordered := by
    unfold Registry.attachTo
    split
    · exact hf
    · exact Table.ordered_insert hf _ _
  refine Table.ext_of_ordered (Table.ordered_erase hordered _) hf fun n => ?_
  rw [Table.get?_erase, Registry.get?_attachTo]
  by_cases hn : "$defs" = n
  · rw [if_pos hn, ← hn, hdefs]
  · rw [if_neg hn, if_neg fun h => hn h.1]

/-- A document with its definitions put back is the schema of the same descriptor without any
request for a definition. -/
theorem expand_schemaOf {n : Nat} {d : Descriptor N} {seed : Annotations} {doc : Object}
    (hs : Shareable g ⟨d, seed⟩) (h : Generator.schemaOf {} g n d seed = .ok doc) :
    ∃ f, (∃ fuel, ∀ m ≥ fuel,
      Generator.schemaOf {} g.withoutRefs m d.withoutRefs seed.withoutRefs = .ok f) ∧
        Expands (definition? doc) (doc.erase "$defs") f := by
  obtain ⟨f, r, hb, rfl⟩ := builds_of_schemaOf h
  obtain ⟨S, hS⟩ := exists_visits hb
  have hroot : f.get? "$defs" = none :=
    (hb.resolves f (List.mem_singleton_self f) f .refl).1
  have hordered : f.Ordered := hb.fragments.ordered f (List.mem_singleton_self f)
  have hdefs := definition?_attachTo (hb.ordered Table.ordered_empty) hroot
  obtain ⟨f', hf', hexpands⟩ := hs.transparent hS hdefs .refl f hb.fragments
  have hbuilds := hf'.builds (by simpa using Use.refFree_withoutRefs ⟨d, seed⟩) {}
  refine ⟨f', schemaOf_of_builds hbuilds, ?_⟩
  rw [erase_attachTo r hordered hroot]
  exact hexpands

/-! ## Two uses of one definition -/

/-- A name, under a definition of its own. -/
def nameType : Descriptor Bool where
  serialName := "Name"
  kind := .primitive .string
  annotations := [.refBySerialName, .text .description "a name"]

/-- The type of names, and its nullable form. -/
def nameGraph : Graph Bool := fun nullable => if nullable then nameType.intoNullable else nameType

def firstName : Element Bool where
  name := "first"
  target := false
  annotations := [.text .title "First", .ref "Name"]

def secondName : Element Bool where
  name := "second"
  target := true
  optional := true

def person : Use Bool where
  descriptor := { serialName := "Person", kind := .record, elements := [firstName, secondName] }

theorem eq_of_meets_person {u : Use Bool} (h : Meets nameGraph person u) :
    u = person ∨ u = firstName.use nameGraph ∨ u = secondName.use nameGraph := by
  induction h with
  | refl => exact Or.inl rfl
  | tail _ hstep ih =>
    obtain ⟨n, us, hp, hv⟩ := hstep
    rcases ih with rfl | rfl | rfl
    · cases hp
      rcases List.mem_cons.mp hv with rfl | hv
      · exact Or.inr (Or.inl rfl)
      · exact Or.inr (Or.inr (List.mem_singleton.mp hv))
    · cases hp
      cases hv
    · cases hp
      cases hv

theorem nonNullable_of_person {u : Use Bool} {key : String} (hu : Meets nameGraph person u)
    (hk : u.key? = some key) : u.descriptor.nonNullable = nameType := by
  rcases eq_of_meets_person hu with rfl | rfl | rfl
  · cases hk
  · rfl
  · show nameType.intoNullable.nonNullable = nameType
    exact Descriptor.nonNullable_intoNullable rfl

theorem shareable_person : Shareable nameGraph person where
  acyclic := by
    refine fun x _ => not_transGen_child_of_leaves (fun nullable => ?_) x
    cases nullable with
    | false => rfl
    | true => rfl
  oneTypePerKey := by
    intro u v key hu hv hku hkv
    rw [nonNullable_of_person hu hku, nonNullable_of_person hv hkv]
  doubleFree := by
    intro u _ hu _ t x hmem
    rcases eq_of_meets_person hu with rfl | rfl | rfl
    · cases hmem
    · simp [Element.use, firstName] at hmem
    · cases hmem
  undocumented := by
    intro u key hu hk hmarker
    have hkind : u.descriptor.kind = .primitive .string := by
      rw [← Descriptor.kind_eq_of_outline u.descriptor.outline_nonNullable,
        nonNullable_of_person hu hk]
      rfl
    have hinner := hmarker.eq_kind (by rw [hkind]; simp)
    rw [hkind] at hinner
    cases hinner

theorem expand_person :
    ∃ doc f, Generator.schemaOf {} nameGraph 4 person.descriptor [] = .ok doc ∧
      (∃ fuel, ∀ m ≥ fuel, Generator.schemaOf {} nameGraph.withoutRefs m
        person.descriptor.withoutRefs [] = .ok f) ∧
        Expands (definition? doc) (doc.erase "$defs") f := by
  obtain ⟨doc, hdoc⟩ :
      ∃ doc, Generator.schemaOf {} nameGraph 4 person.descriptor [] = .ok doc := ⟨_, rfl⟩
  obtain ⟨f, hf, hexpands⟩ := expand_schemaOf shareable_person hdoc
  exact ⟨doc, f, hdoc, hf, hexpands⟩

end TypeSchema
