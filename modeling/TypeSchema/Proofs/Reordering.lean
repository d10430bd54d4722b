/-
  Graphs that differ in the order of record elements.

  `Descriptor.Reordered d d'` says that `d'` is `d`, with the elements of a record in any order,
  and `Reorders g g'` that the descriptors at each node are like that. A use then asks for the
  same key in both graphs, and comes to uses that are related again (`Steps.reordered`). Its
  fragment in one graph has a similar one in the other, for the fragments of its parts do
  (`Fragments.reordered`); as the names of a record are distinct, only the list of required names
  shows their order.
-/
import TypeSchema.Proofs.Resolution
import TypeSchema.Proofs.Similarity

namespace TypeSchema

variable {N : Type}

/-- The same descriptor, but for the order of a record's elements. -/
structure Descriptor.Reordered (d d' : Descriptor N) : Prop where
  serialName : d.serialName = d'.serialName
  kind : d.kind = d'.kind
  nullable : d.nullable = d'.nullable
  annotations : d.annotations = d'.annotations
  perm : d.elements.Perm d'.elements
  fixed : d.kind ≠ .record → d.elements = d'.elements

/-- Each node has the same descriptor in both graphs, but for the order of a record's elements. -/
def Reorders (g g' : Graph N) : Prop := ∀ x, (g x).Reordered (g' x)

structure Use.Reordered (u u' : Use N) : Prop where
  descriptor : u.descriptor.Reordered u'.descriptor
  inherited : u.inherited = u'.inherited

/-! ## Descriptors -/

namespace Descriptor.Reordered

variable {d d' d'' : Descriptor N}

theorem refl (d : Descriptor N) : d.Reordered d := ⟨rfl, rfl, rfl, rfl, .refl _, fun _ => rfl⟩

theorem symm (h : d.Reordered d') : d'.Reordered d :=
  ⟨h.serialName.symm, h.kind.symm, h.nullable.symm, h.annotations.symm, h.perm.symm,
    fun hk => (h.fixed (h.kind ▸ hk)).symm⟩

theorem trans (h : d.Reordered d') (h' : d'.Reordered d'') : d.Reordered d'' :=
  ⟨h.serialName.trans h'.serialName, h.kind.trans h'.kind, h.nullable.trans h'.nullable,
    h.annotations.trans h'.annotations, h.perm.trans h'.perm,
    fun hk => (h.fixed hk).trans (h'.fixed (h.kind ▸ hk))⟩

theorem isWrapper (h : d.Reordered d') : d.isWrapper = d'.isWrapper := by
  unfold Descriptor.isWrapper
  rw [h.kind]

theorem elements_of_wrapper (h : d.Reordered d') (hw : d.isWrapper = true) :
    d.elements = d'.elements := by
  refine h.fixed ?_
  rw [isWrapper_iff.mp hw]
  simp

theorem nonNullable (h : d.Reordered d') : d.nonNullable.Reordered d'.nonNullable := by
  unfold Descriptor.nonNullable
  rw [← h.nullable]
  split
  · rw [h.serialName]
    exact { h with serialName := rfl, nullable := rfl }
  · exact h

theorem intoNullable (h : d.Reordered d') : d.intoNullable.Reordered d'.intoNullable := by
  unfold Descriptor.intoNullable
  rw [← h.nullable]
  split
  · exact h
  · exact { h with serialName := congrArg Name.mark h.serialName, nullable := rfl }

theorem withoutRefs (h : d.Reordered d') : d.withoutRefs.Reordered d'.withoutRefs where
  serialName := h.serialName
  kind := h.kind
  nullable := h.nullable
  annotations := congrArg Annotations.withoutRefs h.annotations
  perm := h.perm.map _
  fixed := fun hk => congrArg (List.map Element.withoutRefs) (h.fixed hk)

theorem passNullable {c c' : Descriptor N} (h : d.Reordered d') (hc : c.Reordered c') :
    (d.passNullable c).Reordered (d'.passNullable c') := by
  unfold Descriptor.passNullable
  rw [← h.nullable]
  split
  · exact hc.intoNullable
  · exact hc

theorem requestedKey? (h : d.Reordered d') (inherited : Annotations) :
    d.requestedKey? inherited = d'.requestedKey? inherited := by
  unfold Descriptor.requestedKey?
  rw [h.isWrapper, h.annotations, h.serialName, h.nullable]

theorem variantName (h : d.Reordered d') : d.variantName = d'.variantName := by
  unfold Descriptor.variantName
  rw [h.nullable, h.serialName]

theorem elementNames (h : d.Reordered d') : d.elementNames.Perm d'.elementNames := h.perm.map _

theorem required (h : d.Reordered d') : d.required.Perm d'.required :=
  (h.perm.filter _).map _

end Descriptor.Reordered

theorem Reorders.refl (g : Graph N) : Reorders g g := fun x => .refl (g x)

theorem Reorders.symm {g g' : Graph N} (h : Reorders g g') : Reorders g' g := fun x => (h x).symm

theorem Reorders.trans {g g' g'' : Graph N} (h : Reorders g g') (h' : Reorders g' g'') :
    Reorders g g'' := fun x => (h x).trans (h' x)

/-! ## Uses -/

namespace Use.Reordered

variable {u u' u'' : Use N}

theorem refl (u : Use N) : u.Reordered u := ⟨.refl _, rfl⟩

theorem symm (h : u.Reordered u') : u'.Reordered u := ⟨h.descriptor.symm, h.inherited.symm⟩

theorem trans (h : u.Reordered u') (h' : u'.Reordered u'') : u.Reordered u'' :=
  ⟨h.descriptor.trans h'.descriptor, h.inherited.trans h'.inherited⟩

theorem key? (h : u.Reordered u') : u.key? = u'.key? := by
  unfold Use.key?
  rw [h.inherited, h.descriptor.requestedKey?]

theorem definition (h : u.Reordered u') : u.definition.Reordered u'.definition := by
  unfold Use.definition
  rw [← h.descriptor.isWrapper]
  split
  · exact ⟨h.descriptor.nonNullable.withoutRefs, rfl⟩
  · exact ⟨h.descriptor.nonNullable, rfl⟩

theorem content (h : u.Reordered u') : u.content.Reordered u'.content := by
  unfold Use.content
  rw [← h.key?]
  split
  · exact h.definition
  · exact h

end Use.Reordered

section

variable {g g' : Graph N} (hg : Reorders g g')

include hg

theorem Reorders.use (e : Element N) : (e.use g).Reordered (e.use g') := ⟨hg e.target, rfl⟩

theorem Reorders.variant (e : Element N) : (e.variant g).Reordered (e.variant g') :=
  ⟨hg e.target, rfl⟩

theorem Reorders.inner {u u' : Use N} (hu : u.Reordered u') (value : Element N) :
    (u.inner g value).Reordered (u'.inner g' value) := by
  refine ⟨hu.descriptor.passNullable (hg value.target), ?_⟩
  unfold Use.inner
  rw [hu.inherited, hu.descriptor.annotations]

/-- The same wrappers are looked through in both graphs. -/
theorem exists_innermost_reordered {n : Nat} {d d' t : Descriptor N} (hd : d.Reordered d')
    (h : d.innermost g n = .ok t) : ∃ t', d'.innermost g' n = .ok t' ∧ t.Reordered t' := by
  induction n generalizing d d' with
  | zero =>
    unfold Descriptor.innermost at h ⊢
    rw [← hd.isWrapper]
    split at h
    · cases h
    · next hw =>
      cases h
      exact ⟨d', by rw [if_neg hw], hd⟩
  | succ n ih =>
    unfold Descriptor.innermost at h ⊢
    rw [← hd.isWrapper]
    split at h
    · next hw =>
      rw [if_pos hw]
      split at h
      · next value hv =>
        rw [Use.wrapped_eq_ok, hd.elements_of_wrapper hw, ← Use.wrapped_eq_ok] at hv
        obtain ⟨t', ht', htt'⟩ := ih (hg value.target) h
        refine ⟨t', ?_, htt'⟩
        rw [hv]
        exact ht'
      · cases h
    · next hw =>
      cases h
      exact ⟨d', by rw [if_neg hw], hd⟩

theorem encodable_reordered {n : Nat} {d d' : Descriptor N} (hd : d.Reordered d')
    (h : d.Encodable g n) : d'.Encodable g' n := by
  refine ⟨fun hk key value hes => ?_, fun k hk hes => ?_⟩
  · rw [← hd.kind] at hk
    rw [← hd.fixed (by rw [hk]; simp)] at hes
    obtain ⟨k, hinner, hstring⟩ := h.key hk key value hes
    obtain ⟨k', hinner', hkk'⟩ := exists_innermost_reordered hg (hg key.target) hinner
    exact ⟨k', hinner', hkk'.kind ▸ hstring⟩
  · have hperm := hd.perm
    rw [hes] at hperm
    exact h.variants k (hd.kind.trans hk) hperm.eq_nil

/-! ## Parts -/

/-- Records have the parts of their elements, in the order of each, and all other uses have
related parts. -/
theorem exists_parts_reordered {n : Nat} {u u' : Use N} {us : List (Use N)} (hu : u.Reordered u')
    (hp : u.parts g n = .ok us) : ∃ us', u'.parts g' n = .ok us' ∧
      ((u.descriptor.kind = .record ∧ us = u.descriptor.elements.map (·.use g) ∧
          us' = u'.descriptor.elements.map (·.use g')) ∨
        (u.descriptor.kind ≠ .record ∧ List.Forall₂ Use.Reordered us us')) := by
  obtain ⟨hparts, hencodable⟩ := parts_eq_ok_iff.mp hp
  have hencodable' := encodable_reordered hg hu.descriptor hencodable
  have hkind := hu.descriptor.kind
  have hfixed := hu.descriptor.fixed
  have hof : ∀ {us'}, Parts g' u' us' → u'.parts g' n = .ok us' := fun h =>
    parts_eq_ok_iff.mpr ⟨h, hencodable'⟩
  cases hparts with
  | primitive p hk => exact ⟨[], hof (.primitive p (hkind ▸ hk)), .inr ⟨by simp [hk], .nil⟩⟩
  | enumeration hk => exact ⟨[], hof (.enumeration (hkind ▸ hk)), .inr ⟨by simp [hk], .nil⟩⟩
  | marker hk => exact ⟨[], hof (.marker (hkind ▸ hk)), .inr ⟨by simp [hk], .nil⟩⟩
  | record hk => exact ⟨_, hof (.record (hkind ▸ hk)), .inl ⟨hk, rfl, rfl⟩⟩
  | list item hk hes =>
    have hne : u.descriptor.kind ≠ .record := by simp [hk]
    exact ⟨_, hof (.list item (hkind ▸ hk) (hfixed hne ▸ hes)),
      .inr ⟨hne, .cons (hg.use item) .nil⟩⟩
  | map key value hk hes =>
    have hne : u.descriptor.kind ≠ .record := by simp [hk]
    exact ⟨_, hof (.map key value (hkind ▸ hk) (hfixed hne ▸ hes)),
      .inr ⟨hne, .cons (hg.use value) .nil⟩⟩
  | polymorphic k hk =>
    have hne : u.descriptor.kind ≠ .record := by simp [hk]
    refine ⟨_, hof (.polymorphic k (hkind ▸ hk)), .inr ⟨hne, ?_⟩⟩
    rw [← hfixed hne, List.forall₂_map_left_iff, List.forall₂_map_right_iff]
    exact List.forall₂_same.mpr fun e _ => hg.variant e
  | wrapper value hk hes =>
    have hne : u.descriptor.kind ≠ .record := by simp [hk]
    exact ⟨_, hof (.wrapper value (hkind ▸ hk) (hfixed hne ▸ hes)),
      .inr ⟨hne, .cons (hg.inner hu value) .nil⟩⟩

theorem Steps.reordered {u u' v : Use N} (hu : u.Reordered u') (h : Steps g u v) :
    ∃ v', Steps g' u' v' ∧ v.Reordered v' := by
  obtain ⟨n, us, hp, hv⟩ := h
  obtain ⟨us', hp', hus⟩ := exists_parts_reordered hg hu.content hp
  rcases hus with ⟨_, rfl, rfl⟩ | ⟨_, hus⟩
  · obtain ⟨e, he, rfl⟩ := List.mem_map.mp hv
    have he' := hu.content.descriptor.perm.mem_iff.mp he
    exact ⟨e.use g', ⟨n, _, hp', List.mem_map_of_mem he'⟩, hg.use e⟩
  · obtain ⟨v', hv', hvv'⟩ := exists_of_mem_forall₂ hus hv
    exact ⟨v', ⟨n, us', hp', hv'⟩, hvv'⟩

theorem Meets.reordered {u u' v : Use N} (hu : u.Reordered u') (h : Meets g u v) :
    ∃ v', Meets g' u' v' ∧ v.Reordered v' := by
  induction h with
  | refl => exact ⟨u', .refl, hu⟩
  | tail _ hstep ih =>
    obtain ⟨w', hw', hww'⟩ := ih
    obtain ⟨v', hv', hvv'⟩ := hstep.reordered hg hww'
    exact ⟨v', hw'.tail hv', hvv'⟩

theorem Reaches.reordered {d d' x : Descriptor N} (hd : d.Reordered d') (h : Reaches g d x) :
    ∃ x', Reaches g' d' x' ∧ x.Reordered x' := by
  induction h with
  | refl => exact ⟨d', .refl, hd⟩
  | tail _ hchild ih =>
    obtain ⟨y', hy', hyy'⟩ := ih
    obtain ⟨e, he, rfl⟩ := hchild
    exact ⟨e.child g', hy'.tail ⟨e, hyy'.perm.mem_iff.mp he, rfl⟩, hg e.target⟩

end

theorem DistinctNames.reordered {g g' : Graph N} (hg : Reorders g g') {d d' : Descriptor N}
    (hd : d.Reordered d') (h : DistinctNames g d) : DistinctNames g' d' := by
  intro x' hx' hk
  obtain ⟨x, hx, hxx'⟩ := hx'.reordered hg.symm hd.symm
  exact hxx'.elementNames.symm.nodup (h x hx (hxx'.kind ▸ hk))

/-! ## Shapes -/

section

variable {d d' : Descriptor N} {us us' : List (Use N)} {fs fs' gs : List Object}

/-- The properties of a record make similar tables, whatever the order of its elements. -/
theorem similar_properties (hn : d.elementNames.Nodup) (hlen : d.elements.length = gs.length)
    (hfs : List.Forall₂ SimilarObject fs gs)
    (hzip : (d.elements.zip gs).Perm (d'.elements.zip fs')) :
    SimilarObject (Table.ofList (d.properties fs)) (Table.ofList (d'.properties fs')) := by
  have hsame : List.Forall₂ (SimilarEntry Similar) (d.properties fs) (d.properties gs) := by
    have hes : List.Forall₂ (· = ·) d.elements d.elements := List.forall₂_refl _
    refine forall₂_zipWith (fun e e' f f' he hf => ?_) hes hfs
    rw [he]
    exact .same hf.similar
  have hproperties : ∀ (x : Descriptor N) (fs : List Object), x.properties fs =
      (x.elements.zip fs).map fun p => (p.1.name, .object p.2) := fun x fs =>
    (List.map_uncurry_zip_eq_zipWith).symm
  have hnodup : ((d.properties gs).map Prod.fst).Nodup := by
    rw [Descriptor.map_fst_properties hlen]
    exact hn
  have hperm : (d.properties gs).Perm (d'.properties fs') := by
    rw [hproperties, hproperties]
    exact hzip.map _
  rw [← Table.ofList_perm hperm hnodup]
  exact .ofList hsame

/-- The required names are the same ones. -/
theorem similar_writeRequired (hd : d.Reordered d') {t u : Object} (h : SimilarObject t u) :
    SimilarObject (d.writeRequired t) (d'.writeRequired u) := by
  have hempty : d.required.isEmpty = d'.required.isEmpty := by
    rw [Bool.eq_iff_iff, List.isEmpty_iff, List.isEmpty_iff]
    exact ⟨fun h => (h ▸ hd.required).nil_eq.symm, fun h => (h ▸ hd.required).eq_nil⟩
  unfold Descriptor.writeRequired
  rw [← hempty]
  split
  · exact h
  · exact h.insert_entry (.required (hd.required.map _))

/-- Of a record only the order of the required names may show. -/
theorem similar_shape_of_record (hd : d.Reordered d') (hk : d.kind = .record)
    (hproperties :
      SimilarObject (Table.ofList (d.properties fs)) (Table.ofList (d'.properties fs'))) :
    SimilarObject (d.shape us fs) (d'.shape us' fs') := by
  have hbase := (SimilarObject.refl (Table.empty.insert "type"
    (JsonType.object.keywordValue d.nullable))).insert "properties" hproperties.similar
  unfold Descriptor.shape
  rw [← hd.kind, ← hd.nullable, hk]
  exact similar_writeRequired hd hbase

theorem similar_shape (hd : d.Reordered d') (hk : d.kind ≠ .record)
    (hus : List.Forall₂ Use.Reordered us us') (hfs : List.Forall₂ SimilarObject fs fs') :
    SimilarObject (d.shape us fs) (d'.shape us' fs') := by
  have hes := hd.fixed hk
  have hfold : ∀ (keyword : String) (s : Object),
      SimilarObject (fs.foldl (fun s f => s.insert keyword (.object f)) s)
        (fs'.foldl (fun s f => s.insert keyword (.object f)) s) := fun keyword s =>
    List.rel_foldl (fun _ _ hs _ _ hf => hs.insert keyword hf.similar) (.refl s) hfs
  unfold Descriptor.shape
  rw [← hd.kind, ← hd.nullable]
  split
  · exact .refl _
  · unfold Descriptor.elementNames
    rw [hes]
    exact .refl _
  · next hrecord => exact absurd hrecord hk
  · exact hfold _ _
  · exact hfold _ _
  · have hvariants : List.Forall₂ SimilarObject
        (List.zipWith (fun u f => taggedVariant u.descriptor.variantName f) us fs)
        (List.zipWith (fun u f => taggedVariant u.descriptor.variantName f) us' fs') :=
      forall₂_zipWith (fun u u' _ _ hu hf => by
        rw [hu.descriptor.variantName]
        exact hf.taggedVariant _) hus hfs
    have hnull : List.Forall₂ SimilarObject (if d.nullable then [nullFragment] else [])
        (if d.nullable then [nullFragment] else []) :=
      List.forall₂_same.mpr fun f _ => .refl f
    refine (SimilarObject.refl _).insert "anyOf" (.array ?_)
    rw [List.forall₂_map_left_iff, List.forall₂_map_right_iff]
    exact (List.rel_append hnull hvariants).imp fun _ _ h => h.similar
  · exact .refl _
  · exact .refl _
  · exact .refl _

end

/-! ## Fragments -/

section

variable {g g' : Graph N} {u u' : Use N} {us us' : List (Use N)} {fs fs' : List Object}
  {f : Object}

/-- A fragment is finished in both graphs or in none, as the same bounds are checked. -/
theorem exists_finish_of_shape (hu : u.Reordered u') (hw : u.descriptor.isWrapper = false)
    (hshape : SimilarObject (u.descriptor.shape us fs) (u'.descriptor.shape us' fs'))
    (hf : u.finish us fs = .ok f) :
    ∃ f', u'.finish us' fs' = .ok f' ∧ SimilarObject f f' := by
  have hw' : u'.descriptor.isWrapper = false := hu.descriptor.isWrapper ▸ hw
  unfold Use.finish at hf ⊢
  rw [hw] at hf
  rw [hw']
  obtain ⟨hcheck, rfl⟩ := Descriptor.finish_eq_ok.mp hf
  rw [hu.inherited, hu.descriptor.annotations, hu.descriptor.kind] at hcheck ⊢
  exact ⟨_, Descriptor.finish_eq_ok.mpr ⟨hcheck, rfl⟩, hshape.write _ _⟩

theorem exists_finish (hu : u.Reordered u') (hk : u.descriptor.kind ≠ .record)
    (hus : List.Forall₂ Use.Reordered us us') (hfs : List.Forall₂ SimilarObject fs fs')
    (hf : u.finish us fs = .ok f) :
    ∃ f', u'.finish us' fs' = .ok f' ∧ SimilarObject f f' := by
  cases hw : u.descriptor.isWrapper with
  | false => exact exists_finish_of_shape hu hw (similar_shape hu.descriptor hk hus hfs) hf
  | true =>
    unfold Use.finish at hf ⊢
    rw [hw] at hf
    rw [← hu.descriptor.isWrapper, hw]
    cases hf
    refine ⟨_, rfl, ?_⟩
    cases hfs with
    | nil => exact .refl _
    | cons h _ => exact h

/-- The pointers to a key are the same in both graphs. -/
theorem pointer_reordered (hg : Reorders g g') (hu : u.Reordered u') {n : Nat} {key : String}
    (h : u.pointer g n key = .ok f) : u'.pointer g' n key = .ok f := by
  have htarget : ∀ t, u.target g n = .ok t → ∃ t', u'.target g' n = .ok t' ∧ t.Reordered t' := by
    intro t ht
    unfold Use.target at ht ⊢
    rw [← hu.descriptor.isWrapper]
    split at ht
    · next hw =>
      obtain ⟨value, hvalue, ht⟩ := except_bind_eq_ok.mp ht
      rw [except_mapError_eq_ok, Use.wrapped_eq_ok, hu.descriptor.elements_of_wrapper hw,
        ← Use.wrapped_eq_ok] at hvalue
      obtain ⟨t', ht', htt'⟩ := exists_innermost_reordered hg (hg value.target) ht
      rw [if_pos hw]
      exact ⟨t', except_bind_eq_ok.mpr ⟨value, except_mapError_eq_ok.mpr hvalue, ht'⟩, htt'⟩
    · next hw =>
      cases ht
      exact ⟨u'.descriptor, by rw [if_neg hw], hu.descriptor⟩
  unfold Use.pointer at h ⊢
  obtain ⟨t, ht, hrest⟩ := except_bind_eq_ok.mp h
  obtain ⟨t', ht', htt'⟩ := htarget t ht
  rw [htt'.kind, hu.inherited, hu.descriptor.nullable] at hrest
  exact except_bind_eq_ok.mpr ⟨t', ht', hrest⟩

theorem Fragments.iff_forall₂ : Fragments g us fs ↔
    List.Forall₂ (fun u f => Fragments g [u] [f]) us fs := by
  constructor
  · intro h
    refine List.forall₂_iff_zip.mpr ⟨h.length_eq, fun hp => h.of_mem_zip hp⟩
  · intro h
    induction h with
    | nil => exact .nil
    | cons hu _ ih =>
      cases hu with
      | inPlace n hk hp hus hf _ => exact .inPlace n hk hp hus hf ih
      | pointer n hk hf _ => exact .pointer n hk hf ih

/-- What is put together in one graph is put together in the other, once the fragments of the
parts are there. -/
theorem exists_assembly (hg : Reorders g g') (hu : u.Reordered u')
    (hn : DistinctNames g u.descriptor) {n : Nat} (hp : u.parts g n = .ok us)
    (hlen : us.length = fs.length)
    (hparts : ∀ us', List.Forall₂ Use.Reordered us us' →
      ∃ fs', Fragments g' us' fs' ∧ List.Forall₂ SimilarObject fs fs')
    (hf : u.finish us fs = .ok f) :
    ∃ us' fs' f', u'.parts g' n = .ok us' ∧ Fragments g' us' fs' ∧
      u'.finish us' fs' = .ok f' ∧ SimilarObject f f' := by
  obtain ⟨us', hp', hus⟩ := exists_parts_reordered hg hu hp
  rcases hus with ⟨hk, rfl, rfl⟩ | ⟨hk, hus⟩
  · -- the fragments of the elements, in the order of the first graph and then of the second
    have hsame : List.Forall₂ Use.Reordered (u.descriptor.elements.map (·.use g))
        (u.descriptor.elements.map (·.use g')) := by
      rw [List.forall₂_map_left_iff, List.forall₂_map_right_iff]
      exact List.forall₂_same.mpr fun e _ => hg.use e
    obtain ⟨gs, hgs, hfs⟩ := hparts _ hsame
    rw [Fragments.iff_forall₂, List.forall₂_map_left_iff] at hgs
    obtain ⟨fs', hfs', hzip⟩ := exists_perm_zip hgs hu.descriptor.perm
    have hnodup : u.descriptor.elementNames.Nodup := hn u.descriptor .refl hk
    have hproperties := similar_properties hnodup hgs.length_eq hfs hzip
    have hw : u.descriptor.isWrapper = false := Descriptor.isWrapper_eq_false (by simp [hk])
    obtain ⟨f', hf', hff'⟩ := exists_finish_of_shape hu hw
      (similar_shape_of_record hu.descriptor hk hproperties) hf
    refine ⟨_, fs', f', hp', ?_, hf', hff'⟩
    rw [Fragments.iff_forall₂, List.forall₂_map_left_iff]
    exact hfs'
  · obtain ⟨fs', hfs', hfs⟩ := hparts us' hus
    obtain ⟨f', hf', hff'⟩ := exists_finish hu hk hus hfs hf
    exact ⟨us', fs', f', hp', hfs', hf', hff'⟩

/-- Uses that are related have similar fragments in related graphs. -/
theorem Fragments.reordered (hg : Reorders g g') (h : Fragments g us fs)
    (hn : ∀ u ∈ us, DistinctNames g u.descriptor) (hus : List.Forall₂ Use.Reordered us us') :
    ∃ fs', Fragments g' us' fs' ∧ List.Forall₂ SimilarObject fs fs' := by
  induction h generalizing us' with
  | nil =>
    cases hus
    exact ⟨[], .nil, .nil⟩
  | inPlace n hk hp hps hf _ ihps ihvs =>
    obtain _ | ⟨hu, hvs⟩ := hus
    obtain ⟨hnu, hnvs⟩ := List.forall_mem_cons.mp hn
    obtain ⟨gs', hgs', hgs⟩ := ihvs hnvs hvs
    obtain ⟨us', fs', f', hp', hfs', hf', hff'⟩ := exists_assembly hg hu hnu hp hps.length_eq
      (fun _ => ihps fun v hv => hnu.of_parts (Parts.of_parts hp) hv) hf
    exact ⟨f' :: gs', .inPlace n (hu.key? ▸ hk) hp' hfs' hf' hgs', .cons hff' hgs⟩
  | pointer n hk hf _ ihvs =>
    obtain _ | ⟨hu, hvs⟩ := hus
    obtain ⟨gs', hgs', hgs⟩ := ihvs (List.forall_mem_cons.mp hn).2 hvs
    exact ⟨_ :: gs', .pointer n (hu.key? ▸ hk) (pointer_reordered hg hu hf) hgs',
      .cons (.refl _) hgs⟩

theorem Whole.reordered (hg : Reorders g g') (hu : u.Reordered u')
    (hn : DistinctNames g u.descriptor) (h : Whole g u f) :
    ∃ f', Whole g' u' f' ∧ SimilarObject f f' := by
  obtain ⟨n, us, fs, hp, hfs, hf⟩ := h
  have hnus : ∀ v ∈ us, DistinctNames g v.descriptor := fun v hv =>
    hn.of_parts (Parts.of_parts hp) hv
  obtain ⟨us', fs', f', hp', hfs', hf', hff'⟩ := exists_assembly hg hu hn hp hfs.length_eq
    (fun _ => hfs.reordered hg hnus) hf
  exact ⟨f', ⟨n, us', fs', hp', hfs', hf'⟩, hff'⟩

end

end TypeSchema
