/-
  Which values a type has, and that its schema accepts exactly those.

  `Describes g d v` says that `v` is a value of the type that `d` describes, by the kind of `d` and
  the children at its elements. Annotations have no say in it: descriptors of one outline describe
  the same values but for `null` (`Describes.of_outline`), so a definition, which leaves the
  nullability to the pointers, describes what its uses do. The two directions of
  `accepts_schemaOf_iff` are inductions on acceptance and on description.
-/
import TypeSchema.Proofs.Acceptance
import TypeSchema.Proofs.PlainName
import TypeSchema.Proofs.Resolution

namespace TypeSchema

variable {N : Type}

/-- The values of a type. -/
inductive Describes (g : Graph N) : Descriptor N → Json → Prop
  | null {d} : d.nullable = true → Describes g d .null
  | primitive {d name v} (p : Primitive) : d.kind = .primitive p → p.WrittenAs name →
    OfType name v → Describes g d v
  | enumeration {d e} : d.kind = .enumeration → e ∈ d.elements → Describes g d (.string e.name)
  /-- A type without data does not say what stands for it. -/
  | marker {d} (v : Json) : d.kind = .marker → Describes g d v
  /-- Members that no element names are free. -/
  | record {d ms} : d.kind = .record →
    (∀ e ∈ d.elements, e.optional = false → (ms.get? e.name).isSome) →
    (∀ e ∈ d.elements, ∀ w, ms.get? e.name = some w → Describes g (e.child g) w) →
    Describes g d (.object ms)
  | list {d item ws} : d.kind = .list → d.elements = [item] →
    (∀ w ∈ ws, Describes g (item.child g) w) → Describes g d (.array ws)
  | map {d key value ms} : d.kind = .map → d.elements = [key, value] →
    (∀ k w, ms.get? k = some w → Describes g (value.child g) w) → Describes g d (.object ms)
  | wrapper {d value v} : d.kind = .wrapper → d.elements = [value] →
    Describes g (value.child g) v → Describes g d v
  /-- An object has the plain name of its variant; other values need no name. -/
  | polymorphic {d name v} (h : Hierarchy) (e : Element N) : d.kind = .polymorphic h →
    e ∈ d.elements → Describes g (e.child g) v → (e.child g).PlainName name →
    (∀ ms, v = .object ms → ms.get? "type" = some (.string name)) → Describes g d v

variable {g : Graph N}

/-! ## Descriptors of one outline -/

/-- What a type has as values depends on its outline, and `null` on its nullability. -/
theorem Describes.of_outline {d d' : Descriptor N} {v : Json} (h : d.outline = d'.outline)
    (hnull : d.nullable = true → d'.nullable = true ∨ v ≠ .null) (hd : Describes g d v) :
    Describes g d' v := by
  have hkind := Descriptor.kind_eq_of_outline h
  cases hd with
  | null hn => exact (hnull hn).elim .null fun hv => absurd rfl hv
  | primitive p hk hname hv => exact .primitive p (hkind ▸ hk) hname hv
  | enumeration hk he =>
    obtain ⟨e', he', hbare⟩ := Descriptor.exists_bare_eq h he
    rw [← Element.name_eq_of_bare hbare]
    exact .enumeration (hkind ▸ hk) he'
  | marker _ hk => exact .marker v (hkind ▸ hk)
  | record hk hreq hes =>
    refine .record (hkind ▸ hk) (fun e he hopt => ?_) fun e he w hw => ?_
    · obtain ⟨e', he', hbare⟩ := Descriptor.exists_bare_eq h.symm he
      rw [← Element.name_eq_of_bare hbare]
      exact hreq e' he' ((Element.optional_eq_of_bare hbare).trans hopt)
    · obtain ⟨e', he', hbare⟩ := Descriptor.exists_bare_eq h.symm he
      rw [← Element.child_eq_of_bare g hbare]
      exact hes e' he' w (Element.name_eq_of_bare hbare ▸ hw)
  | list hk hes hws =>
    obtain ⟨e', he', hbare⟩ := Descriptor.elements_eq_singleton h hes
    refine .list (hkind ▸ hk) he' fun w hw => ?_
    rw [Element.child_eq_of_bare g hbare]
    exact hws w hw
  | map hk hes hms =>
    obtain ⟨_, e', he', _, hbare⟩ := Descriptor.elements_eq_pair h hes
    refine .map (hkind ▸ hk) he' fun k w hw => ?_
    rw [Element.child_eq_of_bare g hbare]
    exact hms k w hw
  | wrapper hk hes hv =>
    obtain ⟨e', he', hbare⟩ := Descriptor.elements_eq_singleton h hes
    refine .wrapper (hkind ▸ hk) he' ?_
    rw [Element.child_eq_of_bare g hbare]
    exact hv
  | polymorphic k e hk he hv hname htag =>
    obtain ⟨e', he', hbare⟩ := Descriptor.exists_bare_eq h he
    refine .polymorphic k e' (hkind ▸ hk) he' ?_ ?_ htag
    · rw [Element.child_eq_of_bare g hbare]
      exact hv
    · rw [Element.child_eq_of_bare g hbare]
      exact hname

/-! ## Accepted values are described -/

section

variable {defs : String → Option Object} {R : Json → Json → Prop} {w : Use N}
  {us : List (Use N)} {fs : List Object} {t : Object} {v : Json}

/-- If what `R` says of the parts is described by them, then what a fragment made of them allows
is described by the type. -/
theorem describes_of_allows (hp : Parts g w us) (hlen : us.length = fs.length)
    (hk : w.descriptor.kind ≠ .wrapper)
    (hn : w.descriptor.kind = .record → w.descriptor.elementNames.Nodup)
    (ha : Allows defs R (w.descriptor.shape us fs) v)
    (hnull : ∀ v, R (.object nullFragment) v → v = .null)
    (hpart : ∀ p ∈ us.zip fs, ∀ v, R (.object p.2) v → Describes g p.1.descriptor v)
    (htagged : ∀ p ∈ us.zip fs, ∀ name v, R (.object (taggedVariant name p.2)) v →
      Describes g p.1.descriptor v ∧
        ∀ ms, v = .object ms → ms.get? "type" = some (.string name)) :
    Describes g w.descriptor v := by
  have hofnull : w.descriptor.nullable = true ∧ v = .null → Describes g w.descriptor v := by
    rintro ⟨hd, rfl⟩
    exact .null hd
  cases hp with
  | primitive p hk =>
    rcases (allows_primitive hk).mp ha with hv | hv
    · exact .primitive p hk p.writtenAs_jsonType hv
    · exact hofnull hv
  | enumeration hk =>
    rcases (allows_enumeration hk).mp ha with ⟨e, he, rfl⟩ | hv
    · exact .enumeration hk he
    · exact hofnull hv
  | marker hk => exact .marker v hk
  | record hk =>
    rw [List.length_map] at hlen
    rw [List.zip_map_left] at hpart
    rcases (allows_record hk hlen (hn hk)).mp ha with ⟨ms, rfl, hreq, hes⟩ | hv
    · refine .record hk hreq fun e he v hv => ?_
      obtain ⟨f, hf⟩ := exists_mem_zip_of_left hlen he
      exact hpart _ (List.mem_map_of_mem hf) v (hes (e, f) hf v hv)
    · exact hofnull hv
  | list item hk hes =>
    obtain ⟨f, rfl⟩ := List.length_eq_one_iff.mp hlen.symm
    rcases (allows_list hk).mp ha with ⟨ws, rfl, hws⟩ | hv
    · exact .list hk hes fun v hv => hpart _ (List.mem_singleton_self _) v (hws v hv)
    · exact hofnull hv
  | map key value hk hes =>
    obtain ⟨f, rfl⟩ := List.length_eq_one_iff.mp hlen.symm
    rcases (allows_map hk).mp ha with ⟨ms, rfl, hms⟩ | hv
    · exact .map hk hes fun k v hv => hpart _ (List.mem_singleton_self _) v (hms k v hv)
    · exact hofnull hv
  | polymorphic h hk =>
    rcases (allows_polymorphic hk).mp ha with ⟨p, hp, hv⟩ | ⟨hd, hv⟩
    · obtain ⟨hdescribes, htag⟩ := htagged p hp _ v hv
      obtain ⟨e, he, heq⟩ := List.mem_map.mp (List.of_mem_zip hp).1
      rw [← heq] at hdescribes htag
      exact .polymorphic h e hk he hdescribes (Descriptor.plainName_iff.mpr rfl) htag
    · exact hofnull ⟨hd, hnull v hv⟩
  | wrapper value hkw hes => exact absurd hkw hk

end

/-- What the definitions of a document and the names in it are to a root use. -/
structure Resolved (g : Graph N) (root : Use N) (defs : String → Option Object) : Prop where
  names : DistinctNames g root.descriptor
  whole : ∀ u, Meets g root u → ∀ key, u.key? = some key →
    ∃ t, defs key = some t ∧ Whole g u.definition t

/-- `R` lets a schema accept described values only, for the schemas that a fragment is made of. -/
structure Faithful (g : Graph N) (root : Use N) (defs : String → Option Object)
    (R : Json → Json → Prop) : Prop where
  null : ∀ v, R (.object nullFragment) v → v = .null
  fragment : ∀ u f v, Meets g root u → Fragments g [u] [f] → R (.object f) v →
    Describes g u.descriptor v
  tagged : ∀ u f name v, Meets g root u → Fragments g [u] [f] →
    R (.object (taggedVariant name f)) v → Describes g u.descriptor v ∧
      ∀ ms, v = .object ms → ms.get? "type" = some (.string name)
  target : ∀ u key t v, Meets g root u → u.key? = some key → defs key = some t →
    R (.object t) v → Describes g u.descriptor v
  pointer : ∀ u key v, Meets g root u → u.key? = some key → R (.object (pointer key)) v →
    Describes g u.descriptor v

theorem describes_of_content {u : Use N} {v : Json} (h : Describes g u.content.descriptor v) :
    Describes g u.descriptor v := by
  refine h.of_outline u.outline_content fun hn => ?_
  cases hk : u.key? with
  | none => exact Or.inl (Use.content_of_unkeyed hk ▸ hn)
  | some key =>
    rw [Use.content_of_keyed hk, u.nullable_definition] at hn
    cases hn

/-- The value inside a wrapper is described by it, and `null` if the wrapper says so. -/
theorem describes_of_inner {u : Use N} {value : Element N} {v : Json}
    (hk : u.descriptor.kind = .wrapper) (hes : u.descriptor.elements = [value])
    (h : Describes g (u.inner g value).descriptor v) : Describes g u.descriptor v := by
  by_cases hnull : u.descriptor.nullable = true ∧ v = .null
  · rw [hnull.2]
    exact .null hnull.1
  · refine .wrapper hk hes (h.of_outline ?_ fun hn => ?_)
    · exact Descriptor.outline_passNullable _ _
    · unfold Use.inner Descriptor.passNullable at hn
      split at hn
      · next hd => exact Or.inr fun hv => hnull ⟨hd, hv⟩
      · exact Or.inl hn

section

variable {root u : Use N} {defs : String → Option Object} {R : Json → Json → Prop} {s : Object}
  {v : Json}

theorem Resolved.names_of_meets (h : Resolved g root defs) (hu : Meets g root u)
    (hk : u.content.descriptor.kind = .record) : u.content.descriptor.elementNames.Nodup :=
  ((h.names.of_meets hu).of_outline u.outline_content.symm) _ .refl hk

/-- One step down: a fragment built in place. Of the value inside a wrapper the fragment is the
same, so there it is not `R` that is asked. -/
theorem describes_whole (h : Resolved g root defs) (hR : Faithful g root defs R)
    (ha : Allows defs R s v) (hu : Meets g root u) {n : Nat} {us : List (Use N)}
    {fs : List Object} (hp : u.content.parts g n = .ok us) (hus : Fragments g us fs)
    (hf : u.content.finish us fs = .ok s)
    (hinner : ∀ p ∈ us.zip fs, p.2 = s → Describes g p.1.descriptor v) :
    Describes g u.content.descriptor v := by
  have hparts := Parts.of_parts hp
  have hmeets : ∀ p ∈ us.zip fs, Meets g root p.1 := fun p hp' =>
    hu.tail ⟨n, us, hp, (List.of_mem_zip hp').1⟩
  by_cases hk : u.content.descriptor.kind = .wrapper
  · obtain ⟨value, hes, rfl⟩ := hparts.of_wrapper hk
    obtain ⟨f, rfl⟩ := List.length_eq_one_iff.mp hus.length_eq.symm
    exact describes_of_inner hk hes
      (hinner _ (List.mem_singleton_self _) (Use.finish_wrapper hk hf).symm)
  · have hshape := Use.sameShape_finish hk hf
    refine describes_of_allows hparts hus.length_eq hk (h.names_of_meets hu)
      (hshape.allows_iff.mp ha) hR.null ?_ ?_
    · exact fun p hp v hv => hR.fragment p.1 p.2 v (hmeets p hp) (hus.of_mem_zip hp) hv
    · exact fun p hp name v hv => hR.tagged p.1 p.2 name v (hmeets p hp) (hus.of_mem_zip hp) hv

theorem describes_fragments (h : Resolved g root defs) (hR : Faithful g root defs R)
    (ha : Allows defs R s v) {us : List (Use N)} {fs : List Object} (hus : Fragments g us fs) :
    ∀ p ∈ us.zip fs, p.2 = s → Meets g root p.1 → Describes g p.1.descriptor v := by
  induction hus with
  | nil => exact fun p hp => absurd hp List.not_mem_nil
  | @inPlace u us vs fs gs f n hk hp hus hf _ ihus ihvs =>
    refine List.forall_mem_cons.mpr ⟨fun hs hu => ?_, ihvs⟩
    obtain rfl : f = s := hs
    rw [← Use.content_of_unkeyed hk] at hp hf
    refine describes_of_content (describes_whole h hR ha hu hp hus hf fun p hpz hps => ?_)
    exact ihus p hpz hps (hu.tail ⟨n, _, hp, (List.of_mem_zip hpz).1⟩)
  | @pointer u vs gs f key n hk hf _ ihvs =>
    refine List.forall_mem_cons.mpr ⟨fun hs hu => ?_, ihvs⟩
    obtain rfl : f = s := hs
    have hreference := (SameShape.pointer hf).allows_iff.mp ha
    rw [allows_reference] at hreference
    split at hreference
    · next hn =>
      rcases hreference with hnull | hpointer
      · rw [hR.null v hnull]
        exact .null hn
      · exact hR.pointer u key v hu hk hpointer
    · obtain ⟨t, ht, htv⟩ := hreference
      exact hR.target u key t v hu hk ht htv

end

/-- What a schema says of the uses whose fragment or content it is, if it accepts a value. -/
structure Sound (g : Graph N) (root : Use N) (s v : Json) : Prop where
  fragment : ∀ u f, Meets g root u → s = .object f → Fragments g [u] [f] →
    Describes g u.descriptor v
  content : ∀ u t, Meets g root u → s = .object t → Whole g u.content t →
    Describes g u.descriptor v

section

variable {root : Use N} {defs : String → Option Object} (h : Resolved g root defs)

include h

/-- With its subschemas sound in two steps, acceptance is faithful: a variant stands behind its
tag, and a definition behind its pointer. -/
theorem Resolved.faithful : Faithful g root defs fun t w => Accepts defs t w ∧
    Sound g root t w ∧ ∀ o, t = .object o →
      Allows defs (fun t w => Accepts defs t w ∧ Sound g root t w) o w := by
  have hcontent : ∀ u key t v, Meets g root u → u.key? = some key → defs key = some t →
      Sound g root (.object t) v → Describes g u.descriptor v := by
    intro u key t v hu hk ht hv
    obtain ⟨t', ht', hwhole⟩ := h.whole u hu key hk
    obtain rfl : t = t' := Option.some.inj (ht.symm.trans ht')
    exact hv.content u t hu rfl (by rw [Use.content_of_keyed hk]; exact hwhole)
  refine ⟨?_, ?_, ?_, ?_, ?_⟩
  · exact fun v hv => accepts_nullFragment.mp hv.1
  · exact fun u f v hu hf hv => hv.2.1.fragment u f hu rfl hf
  · intro u f name v hu hf hv
    obtain ⟨⟨_, hbody⟩, htag, _⟩ := (allows_taggedVariant name f).mp (hv.2.2 _ rfl)
    exact ⟨hbody.fragment u f hu rfl hf, (accepts_tag name).mp htag⟩
  · exact fun u key t v hu hk ht hv => hcontent u key t v hu hk ht hv.2.1
  · intro u key v hu hk hv
    obtain ⟨t, ht, _, htv⟩ := (allows_pointer key).mp (hv.2.2 _ rfl)
    exact hcontent u key t v hu hk ht htv

/-- A fragment accepts described values only, and so does a definition. -/
theorem Resolved.sound {s v : Json} (ha : Accepts defs s v) : Sound g root s v := by
  let R : Json → Json → Prop := fun t w => Accepts defs t w ∧ Sound g root t w
  suffices hstrong : Sound g root s v ∧ ∀ o, s = .object o → Allows defs R o v from hstrong.1
  refine Accepts.induct (P := fun s v => Sound g root s v ∧ ∀ o, s = .object o → Allows defs R o v)
    (fun v => ?_) (fun s v hallows => ?_) ha
  · refine ⟨⟨fun u f _ hs => ?_, fun u t _ hs => ?_⟩, fun o hs => ?_⟩
    · cases hs
    · cases hs
    · cases hs
  · have hfragments := fun us fs (hus : Fragments g us fs) =>
      describes_fragments h h.faithful hallows hus
    refine ⟨⟨fun u f hu hs hf => ?_, fun u t hu hs hwhole => ?_⟩, fun o ho => ?_⟩
    · cases hs
      exact hfragments [u] [s] hf _ (List.mem_singleton_self _) rfl hu
    · cases hs
      obtain ⟨n, us, fs, hp, hus, hf⟩ := hwhole
      refine describes_of_content (describes_whole h h.faithful hallows hu hp hus hf ?_)
      exact fun p hpz hps => hfragments us fs hus p hpz hps
        (hu.tail ⟨n, us, hp, (List.of_mem_zip hpz).1⟩)
    · cases ho
      exact hallows.mono fun t w hw => ⟨hw.1, hw.2.1⟩

end

/-! ## Described values are accepted -/

/-- A shape that is nullable allows `null`. -/
theorem allows_null {defs : String → Option Object} {R : Json → Json → Prop} {w : Use N}
    {us : List (Use N)} {fs : List Object} (hp : Parts g w us) (hlen : us.length = fs.length)
    (hk : w.descriptor.kind ≠ .wrapper)
    (hn : w.descriptor.kind = .record → w.descriptor.elementNames.Nodup)
    (hnull : w.descriptor.nullable = true) (hR : R (.object nullFragment) .null) :
    Allows defs R (w.descriptor.shape us fs) .null := by
  cases hp with
  | primitive p hk => exact (allows_primitive hk).mpr (Or.inr ⟨hnull, rfl⟩)
  | enumeration hk => exact (allows_enumeration hk).mpr (Or.inr ⟨hnull, rfl⟩)
  | marker hk => exact allows_marker hk
  | record hk =>
    rw [List.length_map] at hlen
    exact (allows_record hk hlen (hn hk)).mpr (Or.inr ⟨hnull, rfl⟩)
  | list item hk hes =>
    obtain ⟨f, rfl⟩ := List.length_eq_one_iff.mp hlen.symm
    exact (allows_list hk).mpr (Or.inr ⟨hnull, rfl⟩)
  | map key value hk hes =>
    obtain ⟨f, rfl⟩ := List.length_eq_one_iff.mp hlen.symm
    exact (allows_map hk).mpr (Or.inr ⟨hnull, rfl⟩)
  | polymorphic h hk => exact (allows_polymorphic hk).mpr (Or.inr ⟨hnull, hR⟩)
  | wrapper value hkw hes => exact absurd hkw hk

section

variable {root u : Use N} {defs : String → Option Object} (h : Resolved g root defs)

include h

/-- A use accepts what its content accepts, through a pointer if need be. -/
theorem accepts_of_content (hu : Meets g root u) {f : Object} {v : Json}
    (hf : Fragments g [u] [f])
    (hv : ∀ t, Whole g u.content t → Accepts defs (.object t) v) :
    Accepts defs (.object f) v := by
  cases hf with
  | inPlace n hk hp hus hf _ =>
    rw [← Use.content_of_unkeyed hk] at hp hf
    exact hv f ⟨n, _, _, hp, hus, hf⟩
  | @pointer _ _ _ _ key n hk hf _ =>
    obtain ⟨t, ht, hwhole⟩ := h.whole u hu key hk
    have htv : Accepts defs (.object t) v := hv t (by rw [Use.content_of_keyed hk]; exact hwhole)
    rw [accepts_object, (SameShape.pointer hf).allows_iff, allows_reference]
    split
    · refine Or.inr ?_
      rw [accepts_object, allows_pointer]
      exact ⟨t, ht, htv⟩
    · exact ⟨t, ht, htv⟩

/-- The fragments of nullable uses accept `null`, wherever the nullability has been moved. -/
theorem accepts_null {us : List (Use N)} {fs : List Object} (hus : Fragments g us fs) :
    ∀ p ∈ us.zip fs, Meets g root p.1 → p.1.descriptor.nullable = true →
      Accepts defs (.object p.2) .null := by
  induction hus with
  | nil => exact fun p hp => absurd hp List.not_mem_nil
  | @inPlace u us vs fs gs f n hk hp hus hf _ ihus ihvs =>
    refine List.forall_mem_cons.mpr ⟨fun hu hn => ?_, ihvs⟩
    change u.descriptor.nullable = true at hn
    have hparts := Parts.of_parts hp
    by_cases hw : u.descriptor.kind = .wrapper
    · obtain ⟨value, hes, rfl⟩ := hparts.of_wrapper hw
      obtain ⟨f', rfl⟩ := List.length_eq_one_iff.mp hus.length_eq.symm
      have hstep : Steps g u (u.inner g value) :=
        ⟨n, _, by rw [Use.content_of_unkeyed hk]; exact hp, List.mem_singleton_self _⟩
      have hinner : (u.inner g value).descriptor.nullable = true := by
        unfold Use.inner Descriptor.passNullable
        rw [if_pos hn]
        exact (value.child g).nullable_intoNullable
      rw [Use.finish_wrapper hw hf]
      exact ihus (u.inner g value, f') (List.mem_singleton_self _) (hu.tail hstep) hinner
    · have hnames := h.names_of_meets hu
      rw [Use.content_of_unkeyed hk] at hnames
      rw [accepts_object, (Use.sameShape_finish hw hf).allows_iff]
      exact allows_null hparts hus.length_eq hw hnames hn (accepts_nullFragment.mpr rfl)
  | @pointer u vs gs f key n hk hf _ ihvs =>
    refine List.forall_mem_cons.mpr ⟨fun hu hn => ?_, ihvs⟩
    rw [accepts_object, (SameShape.pointer hf).allows_iff, allows_reference, if_pos hn]
    exact Or.inl (accepts_nullFragment.mpr rfl)

/-- A use accepts what the shape of its content allows. -/
theorem accepts_of_shape (hu : Meets g root u) {f : Object} {v : Json}
    (hf : Fragments g [u] [f]) (hk : u.content.descriptor.kind ≠ .wrapper)
    (hv : ∀ us fs, Parts g u.content us → us.length = fs.length →
      (∀ p ∈ us.zip fs, Meets g root p.1 ∧ Fragments g [p.1] [p.2]) →
      Allows defs (Accepts defs) (u.content.descriptor.shape us fs) v) :
    Accepts defs (.object f) v := by
  refine accepts_of_content h hu hf fun t hwhole => ?_
  obtain ⟨n, us, fs, hp, hus, ht⟩ := hwhole
  rw [accepts_object, (Use.sameShape_finish hk ht).allows_iff]
  refine hv us fs (Parts.of_parts hp) hus.length_eq fun p hpz => ?_
  exact ⟨hu.tail ⟨n, us, hp, (List.of_mem_zip hpz).1⟩, hus.of_mem_zip hpz⟩

theorem accepts_record (hu : Meets g root u) {f ms : Object} (hf : Fragments g [u] [f])
    (hk : u.content.descriptor.kind = .record)
    (hreq : ∀ e ∈ u.content.descriptor.elements, e.optional = false → (ms.get? e.name).isSome)
    (hes : ∀ e ∈ u.content.descriptor.elements, ∀ w f', ms.get? e.name = some w →
      Meets g root (e.use g) → Fragments g [e.use g] [f'] → Accepts defs (.object f') w) :
    Accepts defs (.object f) (.object ms) := by
  refine accepts_of_shape h hu hf (by simp [hk]) fun us fs hp hlen hzip => ?_
  obtain rfl := hp.of_record hk
  rw [List.length_map] at hlen
  rw [List.zip_map_left] at hzip
  refine (allows_record hk hlen (h.names_of_meets hu hk)).mpr (Or.inl ⟨ms, rfl, hreq, ?_⟩)
  intro p hpz w hw
  obtain ⟨hmeets, hfragment⟩ := hzip _ (List.mem_map_of_mem hpz)
  exact hes p.1 (List.of_mem_zip hpz).1 w p.2 hw hmeets hfragment

theorem accepts_wrapper (hu : Meets g root u) {f : Object} {v : Json} {value : Element N}
    (hf : Fragments g [u] [f]) (hk : u.content.descriptor.kind = .wrapper)
    (hes : u.content.descriptor.elements = [value])
    (hv : ∀ f', Meets g root (u.content.inner g value) →
      Fragments g [u.content.inner g value] [f'] → Accepts defs (.object f') v) :
    Accepts defs (.object f) v := by
  refine accepts_of_content h hu hf fun t hwhole => ?_
  obtain ⟨n, us, fs, hp, hus, ht⟩ := hwhole
  obtain ⟨value', hes', rfl⟩ := (Parts.of_parts hp).of_wrapper hk
  obtain rfl : value' = value := List.singleton_inj.mp (hes'.symm.trans hes)
  obtain ⟨f', rfl⟩ := List.length_eq_one_iff.mp hus.length_eq.symm
  rw [Use.finish_wrapper hk ht]
  exact hv f' (hu.tail ⟨n, _, hp, List.mem_singleton_self _⟩) hus

theorem accepts_variant (hu : Meets g root u) {f : Object} {v : Json} {k : Hierarchy}
    {e : Element N} (hf : Fragments g [u] [f]) (hk : u.content.descriptor.kind = .polymorphic k)
    (he : e ∈ u.content.descriptor.elements)
    (hv : ∀ f', Meets g root (e.variant g) → Fragments g [e.variant g] [f'] →
      Accepts defs (.object f') v)
    (htag : ∀ ms, v = .object ms → ms.get? "type" = some (.string (e.child g).variantName)) :
    Accepts defs (.object f) v := by
  refine accepts_of_shape h hu hf (by simp [hk]) fun us fs hp hlen hzip => ?_
  obtain rfl := hp.of_polymorphic hk
  obtain ⟨f', hf'⟩ := exists_mem_zip_of_left hlen (List.mem_map_of_mem he)
  obtain ⟨hmeets, hfragment⟩ := hzip _ hf'
  refine (allows_polymorphic hk).mpr (Or.inl ⟨_, hf', ?_⟩)
  rw [accepts_object, allows_taggedVariant, accepts_tag]
  exact ⟨hv f' hmeets hfragment, htag⟩

/-- A fragment accepts every described value, by induction on the description. -/
theorem accepts_of_describes {d : Descriptor N} {v : Json} (hd : Describes g d v) :
    ∀ u f, Meets g root u → u.descriptor.outline = d.outline →
      (d.nullable = true → u.descriptor.nullable = true) → Fragments g [u] [f] →
      Accepts defs (.object f) v := by
  -- the content of a use has the outline of the use, and so the one of the described type
  have hcontent : ∀ {u : Use N} {d : Descriptor N}, u.descriptor.outline = d.outline →
      u.content.descriptor.outline = d.outline := fun ho => (Use.outline_content _).trans ho
  have hkind : ∀ {u : Use N} {d : Descriptor N} {k : Kind}, u.descriptor.outline = d.outline →
      d.kind = k → u.content.descriptor.kind = k := fun ho hk =>
    (Descriptor.kind_eq_of_outline (hcontent ho)).trans hk
  induction hd with
  | null hn => exact fun u f hu ho hnull hf =>
      accepts_null h hf _ (List.mem_singleton_self _) hu (hnull hn)
  | primitive p hk hname hv =>
    intro u f hu ho hnull hf
    have hk' := hkind ho hk
    refine accepts_of_shape h hu hf (by simp [hk']) fun us fs _ _ _ => ?_
    rw [Primitive.writtenAs_iff.mp hname] at hv
    exact (allows_primitive hk').mpr (Or.inl hv)
  | enumeration hk he =>
    intro u f hu ho hnull hf
    have hk' := hkind ho hk
    obtain ⟨e', he', hbare⟩ := Descriptor.exists_bare_eq (hcontent ho).symm he
    refine accepts_of_shape h hu hf (by simp [hk']) fun us fs _ _ _ => ?_
    refine (allows_enumeration hk').mpr (Or.inl ⟨e', he', ?_⟩)
    rw [Element.name_eq_of_bare hbare]
  | marker v hk =>
    intro u f hu ho hnull hf
    have hk' := hkind ho hk
    exact accepts_of_shape h hu hf (by simp [hk']) fun us fs _ _ _ => allows_marker hk'
  | record hk hreq hes ih =>
    intro u f hu ho hnull hf
    refine accepts_record h hu hf (hkind ho hk) (fun e he hopt => ?_)
      fun e he w f' hw hmeets hfragment => ?_
    · obtain ⟨e', he', hbare⟩ := Descriptor.exists_bare_eq (hcontent ho) he
      rw [← Element.name_eq_of_bare hbare]
      exact hreq e' he' ((Element.optional_eq_of_bare hbare).trans hopt)
    · obtain ⟨e', he', hbare⟩ := Descriptor.exists_bare_eq (hcontent ho) he
      have hchild := Element.child_eq_of_bare g hbare
      rw [← Element.name_eq_of_bare hbare] at hw
      refine ih e' he' w hw (e.use g) f' hmeets ?_ ?_ hfragment
      · exact congrArg Descriptor.outline hchild.symm
      · rw [hchild]
        exact id
  | list hk hes hws ih =>
    intro u f hu ho hnull hf
    have hk' := hkind ho hk
    refine accepts_of_shape h hu hf (by simp [hk']) fun us fs hp hlen hzip => ?_
    obtain ⟨item', hes', rfl⟩ := hp.of_list hk'
    obtain ⟨f', rfl⟩ := List.length_eq_one_iff.mp hlen.symm
    obtain ⟨hmeets, hfragment⟩ := hzip (item'.use g, f') (List.mem_singleton_self _)
    have hchild := Descriptor.child_eq_of_singleton g (hcontent ho) hes hes'
    refine (allows_list hk').mpr (Or.inl ⟨_, rfl, fun w hw => ?_⟩)
    exact ih w hw _ _ hmeets (congrArg Descriptor.outline hchild) (by rw [← hchild]; exact id)
      hfragment
  | map hk hes hms ih =>
    intro u f hu ho hnull hf
    have hk' := hkind ho hk
    refine accepts_of_shape h hu hf (by simp [hk']) fun us fs hp hlen hzip => ?_
    obtain ⟨key', value', hes', rfl⟩ := hp.of_map hk'
    obtain ⟨f', rfl⟩ := List.length_eq_one_iff.mp hlen.symm
    obtain ⟨hmeets, hfragment⟩ := hzip (value'.use g, f') (List.mem_singleton_self _)
    have hchild := Descriptor.child_eq_of_pair g (hcontent ho) hes hes'
    refine (allows_map hk').mpr (Or.inl ⟨_, rfl, fun k w hw => ?_⟩)
    exact ih k w hw _ _ hmeets (congrArg Descriptor.outline hchild) (by rw [← hchild]; exact id)
      hfragment
  | wrapper hk hes hv ih =>
    intro u f hu ho hnull hf
    obtain ⟨value', hes', hbare⟩ := Descriptor.elements_eq_singleton (hcontent ho).symm hes
    have hchild := Element.child_eq_of_bare g hbare
    refine accepts_wrapper h hu hf (hkind ho hk) hes' fun f' hmeets hfragment => ?_
    refine ih (u.content.inner g value') f' hmeets ?_ (fun hn => ?_) hfragment
    · exact (Descriptor.outline_passNullable _ _).trans (congrArg Descriptor.outline hchild)
    · unfold Use.inner Descriptor.passNullable
      split
      · exact Descriptor.nullable_intoNullable _
      · exact (congrArg Descriptor.nullable hchild).trans hn
  | @polymorphic d name v k e hk he hv hname htag ih =>
    intro u f hu ho hnull hf
    obtain ⟨e', he', hbare⟩ := Descriptor.exists_bare_eq (hcontent ho).symm he
    have hchild := Element.child_eq_of_bare g hbare
    rw [← hname.variantName, ← hchild] at htag
    rw [← hchild] at ih
    exact accepts_variant h hu hf (hkind ho hk) he'
      (fun f' hmeets hfragment => ih _ f' hmeets rfl id hfragment) htag

end

/-! ## Documents -/

/-- The keywords of a document are those of its fragment, next to its definitions. -/
theorem accepts_attachTo {defs : String → Option Object} {r : Registry} {f : Object} {v : Json} :
    Accepts defs (.object (r.attachTo f)) v ↔ Accepts defs (.object f) v := by
  have hget : ∀ n ∈ shapeKeywords, n ≠ "$defs" → (r.attachTo f).get? n = f.get? n := by
    intro n _ hn
    rw [Registry.get?_attachTo, if_neg]
    rintro ⟨hdefs, _⟩
    exact hn hdefs.symm
  rw [accepts_object, accepts_object]
  exact ⟨fun h => h.of_get?_eq hget, fun h => h.of_get?_eq fun n hn hd => (hget n hn hd).symm⟩

/-- A schema accepts the values that its type has, and no others. -/
theorem accepts_schemaOf_iff {n : Nat} {d : Descriptor N} {seed : Annotations} {doc : Object}
    (hn : DistinctNames g d) (hone : OneTypePerKey g ⟨d, seed⟩)
    (h : Generator.schemaOf {} g n d seed = .ok doc) (v : Json) :
    Accepts (definition? doc) (.object doc) v ↔ Describes g d v := by
  obtain ⟨f, r, hb, rfl⟩ := builds_of_schemaOf h
  obtain ⟨S, hS⟩ := exists_visits hb
  have hsettled : Settled r f := .of_builds hb hn
  have hresolved : Resolved g ⟨d, seed⟩ (definition? (r.attachTo f)) := by
    refine ⟨hn, fun u hu key hk => ?_⟩
    rw [hsettled.definition?_eq]
    exact hS.whole hone hu hk
  rw [accepts_attachTo]
  constructor
  · exact fun ha => (hresolved.sound ha).fragment ⟨d, seed⟩ f .refl rfl hb.fragments
  · exact fun hd => accepts_of_describes hresolved hd ⟨d, seed⟩ f .refl rfl id hb.fragments

theorem accepts_link_iff : ∃ doc, Generator.schemaOf {} linkGraph 3 link [] = .ok doc ∧
    ∀ v, Accepts (definition? doc) (.object doc) v ↔ Describes linkGraph link v := by
  obtain ⟨doc, hdoc⟩ : ∃ doc, Generator.schemaOf {} linkGraph 3 link [] = .ok doc := ⟨_, rfl⟩
  exact ⟨doc, hdoc, accepts_schemaOf_iff distinctNames_link (oneTypePerKey_link []) hdoc⟩

end TypeSchema
