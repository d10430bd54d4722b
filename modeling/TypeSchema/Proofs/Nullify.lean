/-
  Making a fragment accept `null`.

  `nullify` does afterwards, to a finished fragment, what the encodings do for a nullable
  descriptor: it widens the type, adds a literal, or puts a branch in front. On the shape of a
  kind it gives the shape of the nullable descriptor (`nullify_shape`), and it commutes with the
  annotations that are written beside the shape (`nullify_write`).
-/
import TypeSchema.Proofs.Position

namespace TypeSchema

variable {N : Type} {g : Graph N}

/-- The schema of `null` among the branches of a choice. -/
def Json.isNullSchema : Json → Bool
  | .object s =>
    match s.get? "type" with
    | some (.string t) => t = "null"
    | _ => false
  | _ => false

def Json.isNull : Json → Bool
  | .null => true
  | _ => false

/-- The fragment that accepts `null` besides. One that does already stays, and so does the one
that says nothing. -/
def nullify (s : Object) : Object :=
  match s.get? "type", s.get? "enum", s.get? "anyOf" with
  | some (.string t), _, _ => s.insert "type" (Json.strings [t, "null"])
  | none, some (.array js), _ =>
    if js.any Json.isNull then s else s.insert "enum" (.array (js ++ [.null]))
  | none, none, some (.array js) =>
    if js.any Json.isNullSchema then s
    else s.insert "anyOf" (.array (.object nullFragment :: js))
  | _, _, _ => s

/-! ## Ordered fragments -/

namespace Descriptor

theorem ordered_shape (d : Descriptor N) (us : List (Use N)) (fs : List Object) :
    (d.shape us fs).Ordered := by
  have hinsert : ∀ n v, (Table.empty.insert n v : Object).Ordered := fun n v =>
    Table.ordered_insert Table.ordered_empty n v
  have hfold : ∀ n (s : Object), s.Ordered →
      (fs.foldl (fun s f => s.insert n (.object f)) s).Ordered := by
    intro n
    induction fs with
    | nil => exact fun s hs => hs
    | cons f fs ih => exact fun s hs => ih _ (Table.ordered_insert hs _ _)
  unfold shape
  cases d.kind with
  | record =>
    change (d.writeRequired _).Ordered
    unfold writeRequired
    split
    · exact Table.ordered_insert (hinsert _ _) _ _
    · exact Table.ordered_insert (Table.ordered_insert (hinsert _ _) _ _) _ _
  | list => exact hfold _ _ (hinsert _ _)
  | map => exact hfold _ _ (hinsert _ _)
  | primitive p => exact hinsert _ _
  | enumeration => exact hinsert _ _
  | polymorphic h => exact hinsert _ _
  | marker => exact Table.ordered_empty
  | contextual => exact Table.ordered_empty
  | wrapper => exact Table.ordered_empty

/-- Name and annotations of a descriptor leave no trace in its shape. -/
theorem shape_congr {d d' : Descriptor N} (hk : d'.kind = d.kind)
    (hes : d'.elements = d.elements) (hn : d'.nullable = d.nullable) (us : List (Use N))
    (fs : List Object) : d'.shape us fs = d.shape us fs := by
  obtain ⟨_, _, _, _, _⟩ := d
  obtain ⟨_, _, _, _, _⟩ := d'
  dsimp only at hk hes hn
  subst hk hes hn
  rfl

theorem ordered_finish {d : Descriptor N} {as : Annotations} {us : List (Use N)}
    {fs : List Object} {f : Object} (h : d.finish as us fs = .ok f) : f.Ordered := by
  obtain ⟨_, rfl⟩ := finish_eq_ok.mp h
  exact as.ordered_write _ (d.ordered_shape us fs)

end Descriptor

theorem ordered_reference (key : String) (nullable : Bool) :
    (reference key nullable).Ordered := by
  unfold reference
  split
  · exact Table.ordered_ofList _
  · exact Table.ordered_ofList _

theorem ordered_nullify {s : Object} (h : s.Ordered) : (nullify s).Ordered := by
  unfold nullify
  split
  · exact Table.ordered_insert h _ _
  · split
    · exact h
    · exact Table.ordered_insert h _ _
  · split
    · exact h
    · exact Table.ordered_insert h _ _
  · exact h

/-- A finished fragment is ordered, that of a wrapper as the one of its part. -/
theorem Use.ordered_finish {u : Use N} {us : List (Use N)} {fs : List Object} {f : Object}
    (hp : Parts g u us) (hlen : us.length = fs.length) (hf : u.finish us fs = .ok f)
    (hfs : ∀ f' ∈ fs, f'.Ordered) : f.Ordered := by
  by_cases hk : u.descriptor.kind = .wrapper
  · obtain ⟨value, _, rfl⟩ := hp.of_wrapper hk
    obtain ⟨f', rfl⟩ := List.length_eq_one_iff.mp hlen.symm
    rw [finish_wrapper hk hf]
    exact hfs f' (List.mem_singleton_self f')
  · rw [finish_eq_descriptor hk] at hf
    exact Descriptor.ordered_finish hf

theorem Use.ordered_pointer {u : Use N} {n : Nat} {key : String} {f : Object}
    (hf : u.pointer g n key = .ok f) : f.Ordered := by
  obtain ⟨target, _, rfl⟩ := pointer_eq_ok hf
  exact u.inherited.ordered_write _ (ordered_reference key _)

/-! ## Types, literals and branches -/

theorem nullify_of_type {s s' : Object} (hs : s.Ordered) (hs' : s'.Ordered) {t : JsonType}
    {nullable : Bool} (h : s.get? "type" = some (t.keywordValue nullable))
    (h' : ∀ n, s'.get? n = if "type" = n then some (t.keywordValue true) else s.get? n) :
    nullify s = s' := by
  cases nullable with
  | false =>
    have hnullify : nullify s = s.insert "type" (t.keywordValue true) := by
      unfold nullify
      rw [h]
      rfl
    rw [hnullify]
    refine Table.ext_of_ordered (Table.ordered_insert hs _ _) hs' fun n => ?_
    rw [Table.get?_insert, h']
  | true =>
    have hnullify : nullify s = s := by
      unfold nullify
      rw [h]
      rfl
    rw [hnullify]
    refine Table.ext_of_ordered hs hs' fun n => ?_
    rw [h']
    split
    · next hn => rw [← hn, h]
    · rfl

theorem nullify_enum (js : List Json) :
    nullify (Table.empty.insert "enum" (.array js)) = if js.any Json.isNull then
      Table.empty.insert "enum" (.array js) else
      Table.empty.insert "enum" (.array (js ++ [.null])) := rfl

theorem nullify_anyOf (js : List Json) :
    nullify (Table.empty.insert "anyOf" (.array js)) = if js.any Json.isNullSchema then
      Table.empty.insert "anyOf" (.array js) else
      Table.empty.insert "anyOf" (.array (.object nullFragment :: js)) := rfl

/-- Annotations are written beside what makes a fragment nullable. -/
theorem nullify_write (as : Annotations) (ks : List SiteKeyword) {s : Object} (hs : s.Ordered) :
    nullify (as.write ks s) = as.write ks (nullify s) := by
  have hshape : SameShape (as.write ks s) s := SameShape.write as ks s
  have hinsert : ∀ n ∈ shapeKeywords, ∀ v, (as.write ks s).insert n v =
      as.write ks (s.insert n v) := fun n hn v =>
    (as.write_insert hs (fun _ _ => name_ne_of_mem_shape hn) v).symm
  unfold nullify
  rw [hshape "type" (by decide), hshape "enum" (by decide), hshape "anyOf" (by decide)]
  split
  · exact hinsert _ (by decide) _
  · split
    · rfl
    · exact hinsert _ (by decide) _
  · split
    · rfl
    · exact hinsert _ (by decide) _
  · rfl

section

variable {d d' : Descriptor N} (hn : d'.nullable = true) (us : List (Use N)) (fs : List Object)

include hn

theorem nullify_shape_enumeration (hk : d.kind = .enumeration) (hk' : d'.kind = .enumeration)
    (hes : d'.elements = d.elements) : nullify (d.shape us fs) = d'.shape us fs := by
  have hnames : d'.elementNames = d.elementNames := by
    unfold Descriptor.elementNames
    rw [hes]
  have hstrings : (d.elementNames.map Json.string).any Json.isNull = false := by
    simp [Json.isNull]
  unfold Descriptor.shape
  rw [hk, hk']
  simp only [hnames, hn, nullify_enum, List.any_append, hstrings]
  by_cases hnull : d.nullable = true
  · rw [hnull]
    rfl
  · simp [hnull]

/-- No variant is the schema of `null`. -/
theorem nullify_shape_polymorphic {h : Hierarchy} (hk : d.kind = .polymorphic h)
    (hk' : d'.kind = .polymorphic h) : nullify (d.shape us fs) = d'.shape us fs := by
  have hvariants : ((Descriptor.variants us fs).map Json.object).any Json.isNullSchema =
      false := by
    refine List.any_eq_false.mpr fun j hj => ?_
    obtain ⟨s, hs, rfl⟩ := List.mem_map.mp hj
    obtain ⟨p, _, rfl⟩ := mem_zipWith.mp hs
    simp [Json.isNullSchema, get?_taggedVariant]
  have hshape : ∀ x : Descriptor N, x.kind = .polymorphic h → x.shape us fs =
      Table.empty.insert "anyOf" (.array (((if x.nullable then [nullFragment] else []) ++
        Descriptor.variants us fs).map .object)) := by
    intro x hx
    unfold Descriptor.shape
    rw [hx]
    rfl
  rw [hshape d hk, hshape d' hk', nullify_anyOf, hn]
  by_cases hnull : d.nullable = true
  · rw [hnull]
    rfl
  · simp [hnull, hvariants]

end

/-- Of the shape of any kind `nullify` makes the shape of the nullable descriptor. -/
theorem nullify_shape {w : Use N} {us : List (Use N)} {fs : List Object} {d : Descriptor N}
    (hp : Parts g w us) (hlen : us.length = fs.length) (hw : w.descriptor.kind ≠ .wrapper)
    (hk : d.kind = w.descriptor.kind) (hes : d.elements = w.descriptor.elements)
    (hn : d.nullable = true) : nullify (w.descriptor.shape us fs) = d.shape us fs := by
  have hordered := w.descriptor.ordered_shape us fs
  have hordered' := d.ordered_shape us fs
  cases hp with
  | primitive p hkw =>
    have hk := hk.trans hkw
    refine nullify_of_type hordered hordered' (t := p.jsonType)
      (Descriptor.get?_shape_primitive _ _ hkw _) fun n => ?_
    rw [Descriptor.get?_shape_primitive _ _ hk, Descriptor.get?_shape_primitive _ _ hkw, hn]
    split <;> rfl
  | enumeration hkw => exact nullify_shape_enumeration hn _ _ hkw (hk.trans hkw) hes
  | marker hkw =>
    have hk := hk.trans hkw
    unfold Descriptor.shape
    rw [hk, hkw]
    rfl
  | record hkw =>
    have hk := hk.trans hkw
    have hrequired : d.required = w.descriptor.required := by unfold Descriptor.required; rw [hes]
    have hproperties : d.properties fs = w.descriptor.properties fs := by
      unfold Descriptor.properties
      rw [hes]
    refine nullify_of_type hordered hordered' (t := .object)
      (Descriptor.get?_shape_record _ _ hkw _) fun n => ?_
    rw [Descriptor.get?_shape_record _ _ hk, Descriptor.get?_shape_record _ _ hkw, hrequired,
      hproperties, hn]
    by_cases ht : "type" = n
    · subst ht
      rfl
    · simp only [if_neg ht]
  | list item hkw hes =>
    have hk := hk.trans hkw
    obtain ⟨f, rfl⟩ := List.length_eq_one_iff.mp hlen.symm
    refine nullify_of_type hordered hordered' (t := .array)
      (Descriptor.get?_shape_list _ hkw _ _) fun n => ?_
    rw [Descriptor.get?_shape_list _ hk, Descriptor.get?_shape_list _ hkw, hn]
    by_cases ht : "type" = n
    · subst ht
      rfl
    · simp only [if_neg ht]
  | map key value hkw hes =>
    have hk := hk.trans hkw
    obtain ⟨f, rfl⟩ := List.length_eq_one_iff.mp hlen.symm
    refine nullify_of_type hordered hordered' (t := .object)
      (Descriptor.get?_shape_map _ hkw _ _) fun n => ?_
    rw [Descriptor.get?_shape_map _ hk, Descriptor.get?_shape_map _ hkw, hn]
    by_cases ht : "type" = n
    · subst ht
      rfl
    · simp only [if_neg ht]
  | polymorphic h hkw => exact nullify_shape_polymorphic hn _ _ hkw (hk.trans hkw)
  | wrapper value hkw hes => exact absurd hkw hw

end TypeSchema
