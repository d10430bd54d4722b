/-
  Graphs without requests for definitions.

  `Inline g us fs` says what the fragments of uses look like if each is built in place, whatever
  keys are asked for. Where nothing asks for a key this is what the generator builds
  (`Inline.builds`). Taking the requests out of a graph changes neither what a use is made of
  (`Parts.withoutRefs`) nor how it is put together (`Use.finish_withoutRefs`).
-/
import TypeSchema.Proofs.Resolution

namespace TypeSchema

variable {N : Type} {g : Graph N}

/-- The graph whose descriptors ask for no definition. -/
def Graph.withoutRefs (g : Graph N) : Graph N := fun n => (g n).withoutRefs

def Use.withoutRefs (u : Use N) : Use N := ⟨u.descriptor.withoutRefs, u.inherited.withoutRefs⟩

/-- Neither the use nor its elements ask for a definition. -/
structure Use.RefFree (u : Use N) : Prop where
  inherited : u.inherited.hasRef = false
  annotations : u.descriptor.annotations.hasRef = false
  elements : ∀ e ∈ u.descriptor.elements, e.annotations.hasRef = false

/-- Fragments of uses, each built in place. -/
inductive Inline (g : Graph N) : List (Use N) → List Object → Prop
  | nil : Inline g [] []
  | cons {u us vs fs gs f} (n : Nat) : u.parts g n = .ok us → Inline g us fs →
    u.finish us fs = .ok f → Inline g vs gs → Inline g (u :: vs) (f :: gs)

/-! ## Annotations without requests -/

namespace Annotations

theorem hasRef_append (as bs : Annotations) : (as ++ bs).hasRef = (as.hasRef || bs.hasRef) :=
  List.any_append

theorem hasRef_withoutRefs (as : Annotations) : as.withoutRefs.hasRef = false := by
  unfold hasRef withoutRefs
  rw [List.any_filter]
  simp

/-- A look-up that passes over requests does not see them taken out. -/
theorem findSome?_withoutRefs {α : Type} (as : Annotations) {f : Annotation → Option α}
    (h : ∀ a, a.isRef = true → f a = none) : as.withoutRefs.findSome? f = as.findSome? f := by
  unfold withoutRefs
  induction as with
  | nil => rfl
  | cons a as ih =>
    rw [List.filter_cons]
    split
    · rw [List.findSome?_cons, List.findSome?_cons, ih]
    · next ha =>
      rw [List.findSome?_cons, h a (by simpa using ha), ih]

theorem text?_withoutRefs (as : Annotations) (t : TextTag) :
    as.withoutRefs.text? t = as.text? t :=
  as.findSome?_withoutRefs fun a ha => by cases a <;> first | rfl | cases ha

theorem length?_withoutRefs (as : Annotations) (t : LengthTag) :
    as.withoutRefs.length? t = as.length? t :=
  as.findSome?_withoutRefs fun a ha => by cases a <;> first | rfl | cases ha

theorem bound?_withoutRefs (as : Annotations) (t : Bound) :
    as.withoutRefs.bound? t = as.bound? t :=
  as.findSome?_withoutRefs fun a ha => by cases a <;> first | rfl | cases ha

theorem boundDouble?_withoutRefs (as : Annotations) (t : Bound) :
    as.withoutRefs.boundDouble? t = as.boundDouble? t :=
  as.findSome?_withoutRefs fun a ha => by cases a <;> first | rfl | cases ha

theorem value?_withoutRefs (as : Annotations) (k : SiteKeyword) :
    as.withoutRefs.value? k = as.value? k := by
  cases k with
  | text t => simp only [value?, text?_withoutRefs]
  | length t => simp only [value?, length?_withoutRefs]
  | bound t => simp only [value?, bound?_withoutRefs, boundDouble?_withoutRefs]

theorem write_withoutRefs (as : Annotations) (ks : List SiteKeyword) (s : Object) :
    as.withoutRefs.write ks s = as.write ks s := by
  have hput : as.withoutRefs.put = as.put := by
    funext s k
    unfold put
    rw [value?_withoutRefs]
  unfold write
  rw [hput]

theorem check_withoutRefs (as : Annotations) (ks : List SiteKeyword) :
    as.withoutRefs.check ks = as.check ks := by
  induction ks with
  | nil => rfl
  | cons k ks ih =>
    cases k with
    | text t => exact ih
    | length t => exact ih
    | bound t => simp only [check, bound?_withoutRefs, boundDouble?_withoutRefs, ih]

theorem withoutRefs_append (as bs : Annotations) :
    (as ++ bs).withoutRefs = as.withoutRefs ++ bs.withoutRefs := List.filter_append as bs

end Annotations

/-! ## Descriptors without requests -/

namespace Descriptor

theorem wrapped_withoutRefs (d : Descriptor N) :
    d.withoutRefs.wrapped = d.wrapped.map (·.withoutRefs) := by
  unfold wrapped withoutRefs
  rcases d.elements with _ | ⟨e, _ | ⟨e', es⟩⟩
  · rfl
  · rfl
  · simp only [List.map_cons, List.length_cons, List.length_map]
    rfl

theorem elements_withoutRefs_of_singleton {d : Descriptor N} {e : Element N}
    (h : d.elements = [e]) : d.withoutRefs.elements = [e.withoutRefs] := by
  show d.elements.map _ = _
  rw [h]
  rfl

theorem child_withoutRefs (g : Graph N) (e : Element N) :
    e.withoutRefs.child g.withoutRefs = (e.child g).withoutRefs := rfl

theorem intoNullable_withoutRefs (d : Descriptor N) :
    d.withoutRefs.intoNullable = d.intoNullable.withoutRefs := by
  unfold intoNullable
  change (if d.nullable = true then _ else _) = _
  split <;> rfl

theorem innermost_withoutRefs (g : Graph N) (n : Nat) (d : Descriptor N) :
    d.withoutRefs.innermost g.withoutRefs n = (d.innermost g n).map (·.withoutRefs) := by
  induction n generalizing d with
  | zero =>
    unfold innermost
    change (if d.isWrapper = true then _ else _) = _
    split <;> rfl
  | succ n ih =>
    unfold innermost
    rw [wrapped_withoutRefs]
    change (if d.isWrapper = true then _ else _) = _
    split
    · cases d.wrapped with
      | error e => rfl
      | ok value => exact ih (value.child g)
    · rfl

theorem Encodable.withoutRefs {n : Nat} {d : Descriptor N} (h : d.Encodable g n) :
    d.withoutRefs.Encodable g.withoutRefs n := by
  refine ⟨fun hk key value hes => ?_, fun k hk hes => ?_⟩
  · obtain ⟨key, es, hes', rfl, hvalue⟩ := List.map_eq_cons_iff.mp hes
    obtain ⟨value, rfl, rfl⟩ := List.map_eq_singleton_iff.mp hvalue
    obtain ⟨k, hkey, hstring⟩ := h.key hk key value hes'
    refine ⟨k.withoutRefs, ?_, hstring⟩
    rw [child_withoutRefs, innermost_withoutRefs, hkey]
    rfl
  · exact h.variants k hk (List.map_eq_nil_iff.mp hes)

theorem shape_withoutRefs (d : Descriptor N) (us : List (Use N)) (fs : List Object) :
    d.withoutRefs.shape (us.map (·.withoutRefs)) fs = d.shape us fs := by
  have hnames : d.withoutRefs.elementNames = d.elementNames := by
    unfold elementNames withoutRefs
    rw [List.map_map]
    rfl
  have hrequired : d.withoutRefs.required = d.required := by
    unfold required withoutRefs
    rw [List.filter_map, List.map_map]
    rfl
  have hproperties : d.withoutRefs.properties fs = d.properties fs := by
    unfold properties withoutRefs
    rw [List.zipWith_map_left]
    rfl
  have hvariants : variants (us.map (·.withoutRefs)) fs = variants us fs := by
    unfold variants
    rw [List.zipWith_map_left]
    rfl
  have hkind : d.withoutRefs.kind = d.kind := rfl
  unfold shape
  rw [hkind]
  cases d.kind with
  | record =>
    change d.withoutRefs.writeRequired ((Table.empty.insert "type"
      (JsonType.object.keywordValue d.nullable)).insert "properties"
        (Json.ofEntries (d.withoutRefs.properties fs))) = _
    unfold writeRequired
    rw [hproperties, hrequired]
    rfl
  | enumeration =>
    change Table.empty.insert "enum" (Json.array (d.withoutRefs.elementNames.map .string ++
      if d.nullable then [.null] else [])) = _
    rw [hnames]
  | polymorphic h =>
    change Table.empty.insert "anyOf" (Json.array (((if d.nullable then [nullFragment] else []) ++
      variants (us.map (·.withoutRefs)) fs).map .object)) = _
    rw [hvariants]
    rfl
  | primitive p => rfl
  | marker => rfl
  | list => rfl
  | map => rfl
  | contextual => rfl
  | wrapper => rfl

end Descriptor

/-! ## Uses without requests -/

theorem Use.inner_withoutRefs (g : Graph N) (u : Use N) (value : Element N) :
    (u.inner g value).withoutRefs = u.withoutRefs.inner g.withoutRefs value.withoutRefs := by
  unfold inner withoutRefs
  congr 1
  · unfold Descriptor.passNullable
    rw [Descriptor.child_withoutRefs, Descriptor.intoNullable_withoutRefs]
    change _ = if u.descriptor.nullable = true then _ else _
    split <;> rfl
  · rw [Annotations.withoutRefs_append, Annotations.withoutRefs_append]
    rfl

theorem Parts.withoutRefs {u : Use N} {us : List (Use N)} (h : Parts g u us) :
    Parts g.withoutRefs u.withoutRefs (us.map (·.withoutRefs)) := by
  have hes : u.withoutRefs.descriptor.elements = u.descriptor.elements.map (·.withoutRefs) := rfl
  cases h with
  | primitive p hk => exact .primitive p hk
  | enumeration hk => exact .enumeration hk
  | marker hk => exact .marker hk
  | record hk =>
    have hrecord : Parts g.withoutRefs u.withoutRefs _ := .record hk
    rw [hes, List.map_map] at hrecord
    rw [List.map_map]
    exact hrecord
  | list item hk he => exact .list item.withoutRefs hk (by rw [hes, he]; rfl)
  | map key value hk he =>
    exact .map key.withoutRefs value.withoutRefs hk (by rw [hes, he]; rfl)
  | polymorphic k hk =>
    have hpolymorphic : Parts g.withoutRefs u.withoutRefs _ := .polymorphic k hk
    rw [hes, List.map_map] at hpolymorphic
    rw [List.map_map]
    exact hpolymorphic
  | wrapper value hk he =>
    have hwrapper : Parts g.withoutRefs u.withoutRefs _ :=
      .wrapper value.withoutRefs hk (by rw [hes, he]; rfl)
    rw [← Use.inner_withoutRefs] at hwrapper
    exact hwrapper

theorem Use.parts_withoutRefs {n : Nat} {u : Use N} {us : List (Use N)}
    (h : u.parts g n = .ok us) :
    u.withoutRefs.parts g.withoutRefs n = .ok (us.map (·.withoutRefs)) := by
  rw [parts_eq_ok_iff] at h ⊢
  exact ⟨h.1.withoutRefs, h.2.withoutRefs⟩

theorem Use.finish_withoutRefs (u : Use N) (us : List (Use N)) (fs : List Object) :
    u.withoutRefs.finish (us.map (·.withoutRefs)) fs = u.finish us fs := by
  have has : u.withoutRefs.inherited ++ u.withoutRefs.descriptor.annotations =
      (u.inherited ++ u.descriptor.annotations).withoutRefs :=
    (Annotations.withoutRefs_append _ _).symm
  unfold finish
  rw [has]
  unfold Descriptor.finish
  rw [Annotations.check_withoutRefs, Annotations.write_withoutRefs]
  change (if u.descriptor.isWrapper = true then _ else _) = _
  change (if _ then _ else Except.mapError _ _ >>= fun _ => pure (Annotations.write _ _
    (u.descriptor.withoutRefs.shape _ fs))) = _
  rw [Descriptor.shape_withoutRefs]
  rfl

/-! ## What is built without requests -/

theorem Use.RefFree.key? {u : Use N} (h : u.RefFree) : u.key? = none := by
  have hnone : (u.inherited ++ u.descriptor.annotations).refName? u.descriptor.serialName
      u.descriptor.nullable = none := by
    have hsome := Annotations.isSome_refName? (u.inherited ++ u.descriptor.annotations)
      u.descriptor.serialName u.descriptor.nullable
    rw [Annotations.hasRef_append, h.inherited, h.annotations] at hsome
    exact Option.not_isSome_iff_eq_none.mp (by simp [hsome])
  unfold Use.key? Descriptor.requestedKey?
  rw [hnone]
  split <;> rfl

theorem Use.refFree_of_descriptor (d : Descriptor N) {as : Annotations}
    (h : as.hasRef = false) : Use.RefFree ⟨d.withoutRefs, as⟩ := by
  refine ⟨h, Annotations.hasRef_withoutRefs _, fun e he => ?_⟩
  obtain ⟨e', _, rfl⟩ := List.mem_map.mp he
  exact Annotations.hasRef_withoutRefs _

theorem Use.refFree_withoutRefs (u : Use N) : u.withoutRefs.RefFree :=
  refFree_of_descriptor u.descriptor (Annotations.hasRef_withoutRefs _)

theorem Use.RefFree.of_parts {u v : Use N} {us : List (Use N)} (hu : u.RefFree)
    (h : Parts g.withoutRefs u us) (hv : v ∈ us) : v.RefFree := by
  have huse : ∀ e ∈ u.descriptor.elements, (e.use g.withoutRefs).RefFree := fun e he =>
    refFree_of_descriptor (g e.target) (hu.elements e he)
  cases h with
  | primitive p hk => cases hv
  | enumeration hk => cases hv
  | marker hk => cases hv
  | record hk =>
    obtain ⟨e, he, rfl⟩ := List.mem_map.mp hv
    exact huse e he
  | list item hk hes =>
    obtain rfl := List.mem_singleton.mp hv
    exact huse item (by simp [hes])
  | map key value hk hes =>
    obtain rfl := List.mem_singleton.mp hv
    exact huse value (by simp [hes])
  | polymorphic k hk =>
    obtain ⟨e, he, rfl⟩ := List.mem_map.mp hv
    exact refFree_of_descriptor (g e.target) rfl
  | wrapper value hk hes =>
    obtain rfl := List.mem_singleton.mp hv
    have has : (u.inherited ++ u.descriptor.annotations ++ value.annotations).hasRef = false := by
      rw [Annotations.hasRef_append, Annotations.hasRef_append, hu.inherited, hu.annotations,
        hu.elements value (by simp [hes])]
      rfl
    unfold inner Descriptor.passNullable
    split
    · have hnullable : (value.child g.withoutRefs).intoNullable =
          (g value.target).intoNullable.withoutRefs := Descriptor.intoNullable_withoutRefs _
      rw [hnullable]
      exact refFree_of_descriptor _ has
    · exact refFree_of_descriptor (g value.target) has

namespace Inline

variable {us : List (Use N)} {fs : List Object}

theorem length_eq (h : Inline g us fs) : us.length = fs.length := by
  induction h with
  | nil => rfl
  | cons n _ _ _ _ _ ih => rw [List.length_cons, List.length_cons, ih]

/-- Without requests the generator builds everything in place, and registers nothing. -/
theorem builds (h : Inline g.withoutRefs us fs) (hus : ∀ u ∈ us, u.RefFree) (r : Registry) :
    Builds g.withoutRefs r us fs r := by
  induction h with
  | nil => exact .nil r
  | cons n hp _ hf _ ihus ihvs =>
    obtain ⟨hu, hvs⟩ := List.forall_mem_cons.mp hus
    have hparts := ihus fun v hv => hu.of_parts (Parts.of_parts hp) hv
    exact .inPlace n hu.key? hp hparts hf (ihvs hvs)

end Inline

end TypeSchema
