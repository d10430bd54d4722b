/-
  The parts of a use, kind by kind.

  `Parts g u us` lists what is built when `u` is built in place. It is the inversion of
  `Use.parts`: the fuel that looking through the key of a map takes does not show in it. Next to
  it stand the look-ups of a finished fragment, whose shape keywords no annotation touches.
-/
import TypeSchema.Proofs.Derivation

namespace TypeSchema

variable {N : Type} {g : Graph N}

/-! ## Pairs of two lists -/

section

variable {α β γ : Type} {as : List α} {bs : List β}

theorem mem_zipWith {f : α → β → γ} {c : γ} :
    c ∈ List.zipWith f as bs ↔ ∃ p ∈ as.zip bs, f p.1 p.2 = c := by
  rw [← List.map_uncurry_zip_eq_zipWith, List.mem_map]
  rfl

theorem exists_mem_zip_of_right (h : as.length = bs.length) {b : β} (hb : b ∈ bs) :
    ∃ a, (a, b) ∈ as.zip bs := by
  rw [← List.map_snd_zip (Nat.le_of_eq h.symm)] at hb
  obtain ⟨⟨a, _⟩, hp, rfl⟩ := List.mem_map.mp hb
  exact ⟨a, hp⟩

theorem exists_mem_zip_of_left (h : as.length = bs.length) {a : α} (ha : a ∈ as) :
    ∃ b, (a, b) ∈ as.zip bs := by
  rw [← List.map_fst_zip (Nat.le_of_eq h)] at ha
  obtain ⟨⟨_, b⟩, hp, rfl⟩ := List.mem_map.mp ha
  exact ⟨b, hp⟩

end

/-! ## The parts -/

inductive Parts (g : Graph N) (u : Use N) : List (Use N) → Prop
  | primitive (p : Primitive) : u.descriptor.kind = .primitive p → Parts g u []
  | enumeration : u.descriptor.kind = .enumeration → Parts g u []
  | marker : u.descriptor.kind = .marker → Parts g u []
  | record : u.descriptor.kind = .record →
    Parts g u (u.descriptor.elements.map (·.use g))
  | list (item : Element N) : u.descriptor.kind = .list → u.descriptor.elements = [item] →
    Parts g u [item.use g]
  | map (key value : Element N) : u.descriptor.kind = .map →
    u.descriptor.elements = [key, value] → Parts g u [value.use g]
  | polymorphic (h : Hierarchy) : u.descriptor.kind = .polymorphic h →
    Parts g u (u.descriptor.elements.map (·.variant g))
  | wrapper (value : Element N) : u.descriptor.kind = .wrapper →
    u.descriptor.elements = [value] → Parts g u [u.inner g value]

namespace Descriptor

theorem isWrapper_iff {d : Descriptor N} : d.isWrapper = true ↔ d.kind = .wrapper :=
  decide_eq_true_iff

theorem isWrapper_eq_false {d : Descriptor N} (h : d.kind ≠ .wrapper) : d.isWrapper = false :=
  decide_eq_false h

theorem listItem_eq_ok {d : Descriptor N} {item : Element N} (h : d.listItem = .ok item) :
    d.elements = [item] := by
  unfold listItem at h
  split at h
  · next heq => rw [heq, Except.ok.inj h]
  · cases h

theorem mapEntries_eq_ok {d : Descriptor N} {key value : Element N}
    (h : d.mapEntries = .ok (key, value)) : d.elements = [key, value] := by
  unfold mapEntries at h
  split at h
  · next heq => rw [heq]; cases h; rfl
  · cases h

/-- A map has a value only beside a key that is a string. -/
theorem stringKeyedValue_eq_ok {d : Descriptor N} {n : Nat} {value : Element N}
    (h : d.stringKeyedValue g n = .ok value) : ∃ key k, d.elements = [key, value] ∧
      (key.child g).innermost g n = .ok k ∧ k.kind = .primitive .string := by
  unfold stringKeyedValue at h
  obtain ⟨⟨key, value'⟩, hm, h⟩ := except_bind_eq_ok.mp h
  obtain ⟨k, hk, h⟩ := except_bind_eq_ok.mp h
  rw [except_mapError_eq_ok] at hm
  split at h
  · next hstring =>
    cases h
    exact ⟨key, k, mapEntries_eq_ok hm, hk, hstring⟩
  · cases h

end Descriptor

theorem Parts.of_parts {n : Nat} {u : Use N} {us : List (Use N)} (h : u.parts g n = .ok us) :
    Parts g u us := by
  unfold Use.parts at h
  by_cases hw : u.descriptor.isWrapper = true
  · rw [if_pos hw] at h
    obtain ⟨value, hvalue, rfl⟩ := except_map_eq_ok.mp h
    rw [except_mapError_eq_ok] at hvalue
    exact .wrapper value (Descriptor.isWrapper_iff.mp hw) (Use.wrapped_eq_ok.mp hvalue)
  rw [if_neg hw] at h
  unfold Descriptor.parts at h
  split at h
  · next p hk => cases h; exact .primitive p hk
  · next hk => cases h; exact .enumeration hk
  · next hk => cases h; exact .marker hk
  · next hk => cases h; exact .record hk
  · next hk =>
    obtain ⟨item, hitem, rfl⟩ := except_map_eq_ok.mp h
    rw [except_mapError_eq_ok] at hitem
    exact .list item hk (Descriptor.listItem_eq_ok hitem)
  · next hk =>
    obtain ⟨value, hvalue, rfl⟩ := except_map_eq_ok.mp h
    obtain ⟨key, _, hes, _⟩ := Descriptor.stringKeyedValue_eq_ok hvalue
    exact .map key value hk hes
  · next k hk =>
    split at h
    · cases h
    · cases h; exact .polymorphic k hk
  · cases h
  · cases h

/-- What a descriptor needs beyond its elements: the key of a map is a string, found with `n`
units of fuel, and a hierarchy has variants. -/
structure Descriptor.Encodable (g : Graph N) (n : Nat) (d : Descriptor N) : Prop where
  key : d.kind = .map → ∀ key value, d.elements = [key, value] →
    ∃ k, (key.child g).innermost g n = .ok k ∧ k.kind = .primitive .string
  variants : ∀ h, d.kind = .polymorphic h → d.elements ≠ []

theorem Use.parts_of_wrapper {u : Use N} {value : Element N} (hk : u.descriptor.kind = .wrapper)
    (hes : u.descriptor.elements = [value]) (n : Nat) :
    u.parts g n = .ok [u.inner g value] := by
  unfold parts
  rw [if_pos (Descriptor.isWrapper_iff.mpr hk), wrapped_eq_ok.mpr hes]
  rfl

theorem parts_eq_ok_iff {n : Nat} {u : Use N} {us : List (Use N)} :
    u.parts g n = .ok us ↔ Parts g u us ∧ u.descriptor.Encodable g n := by
  constructor
  · intro h
    refine ⟨.of_parts h, fun hk key value hes => ?_, fun k hk => ?_⟩
    · unfold Use.parts Descriptor.parts at h
      rw [if_neg (by simp [Descriptor.isWrapper, hk]), hk] at h
      obtain ⟨value', hvalue, _⟩ := except_map_eq_ok.mp h
      obtain ⟨key', k, hes', hkey, hstring⟩ := Descriptor.stringKeyedValue_eq_ok hvalue
      obtain ⟨rfl, rfl⟩ : key = key' ∧ value = value' := by simpa [hes] using hes'
      exact ⟨k, hkey, hstring⟩
    · unfold Use.parts Descriptor.parts at h
      rw [if_neg (by simp [Descriptor.isWrapper, hk]), hk] at h
      rintro hes
      rw [hes] at h
      cases h
  · rintro ⟨hp, henc⟩
    have hparts : u.descriptor.kind ≠ .wrapper → u.parts g n = u.descriptor.parts g n := by
      intro hk
      unfold Use.parts
      rw [Descriptor.isWrapper_eq_false hk]
      rfl
    cases hp with
    | wrapper value hk hes => exact Use.parts_of_wrapper hk hes n
    | primitive p hk => rw [hparts (by simp [hk]), Descriptor.parts, hk]
    | enumeration hk => rw [hparts (by simp [hk]), Descriptor.parts, hk]
    | marker hk => rw [hparts (by simp [hk]), Descriptor.parts, hk]
    | record hk => rw [hparts (by simp [hk]), Descriptor.parts, hk]
    | list item hk hes =>
      rw [hparts (by simp [hk]), Descriptor.parts, hk]
      simp only [Descriptor.listItem, hes]
      rfl
    | map key value hk hes =>
      obtain ⟨k, hkey, hstring⟩ := henc.key hk key value hes
      rw [hparts (by simp [hk]), Descriptor.parts, hk]
      simp only [Descriptor.stringKeyedValue, Descriptor.mapEntries, hes]
      change Except.map _ ((key.child g).innermost g n >>= _) = _
      rw [hkey]
      change Except.map _ (ite _ _ _) = _
      rw [if_pos hstring]
      rfl
    | polymorphic h hk =>
      rw [hparts (by simp [hk]), Descriptor.parts, hk]
      exact if_neg (by simpa using henc.variants h hk)

namespace Parts

variable {u : Use N} {us : List (Use N)}

theorem of_record (h : Parts g u us) (hk : u.descriptor.kind = .record) :
    us = u.descriptor.elements.map (·.use g) := by
  cases h <;> simp_all

theorem of_list (h : Parts g u us) (hk : u.descriptor.kind = .list) :
    ∃ item, u.descriptor.elements = [item] ∧ us = [item.use g] := by
  cases h <;> simp_all

theorem of_map (h : Parts g u us) (hk : u.descriptor.kind = .map) :
    ∃ key value, u.descriptor.elements = [key, value] ∧ us = [value.use g] := by
  cases h <;> simp_all

theorem of_polymorphic (h : Parts g u us) {k : Hierarchy}
    (hk : u.descriptor.kind = .polymorphic k) :
    us = u.descriptor.elements.map (·.variant g) := by
  cases h <;> simp_all

theorem of_wrapper (h : Parts g u us) (hk : u.descriptor.kind = .wrapper) :
    ∃ value, u.descriptor.elements = [value] ∧ us = [u.inner g value] := by
  cases h <;> simp_all

end Parts

/-- A pointer names its key, with what the use writes beside it. -/
theorem Use.pointer_eq_ok {n : Nat} {u : Use N} {key : String} {f : Object}
    (h : u.pointer g n key = .ok f) : ∃ target, u.target g n = .ok target ∧
      f = u.inherited.write target.kind.siteKeywords (reference key u.descriptor.nullable) := by
  unfold pointer at h
  obtain ⟨target, ht, h⟩ := except_bind_eq_ok.mp h
  obtain ⟨_, _, h⟩ := except_bind_eq_ok.mp h
  exact ⟨target, ht, (Except.ok.inj h).symm⟩

theorem Use.check_of_pointer {u : Use N} {n : Nat} {key : String} {f : Object}
    {target : Descriptor N} (ht : u.target g n = .ok target) (h : u.pointer g n key = .ok f) :
    u.inherited.check target.kind.constraints = .ok () := by
  unfold pointer at h
  obtain ⟨target', ht', h⟩ := except_bind_eq_ok.mp h
  obtain rfl := Except.ok.inj (ht.symm.trans ht')
  obtain ⟨_, hcheck, _⟩ := except_bind_eq_ok.mp h
  exact except_mapError_eq_ok.mp hcheck

/-! ## Finished fragments -/

/-- A fragment is finished if no bound is in the way. -/
theorem Descriptor.finish_eq_ok {d : Descriptor N} {as : Annotations} {us : List (Use N)}
    {fs : List Object} {f : Object} : d.finish as us fs = .ok f ↔
      as.check d.kind.constraints = .ok () ∧ f = as.write d.kind.ownKeywords (d.shape us fs) := by
  unfold finish
  rw [except_bind_eq_ok]
  constructor
  · rintro ⟨_, hcheck, hf⟩
    rw [except_mapError_eq_ok] at hcheck
    exact ⟨hcheck, (Except.ok.inj hf).symm⟩
  · rintro ⟨hcheck, rfl⟩
    exact ⟨(), except_mapError_eq_ok.mpr hcheck, rfl⟩

theorem Use.finish_eq_descriptor {u : Use N} (hk : u.descriptor.kind ≠ .wrapper)
    (us : List (Use N)) (fs : List Object) :
    u.finish us fs = u.descriptor.finish (u.inherited ++ u.descriptor.annotations) us fs := by
  unfold finish
  rw [Descriptor.isWrapper_eq_false hk]
  rfl

/-- The two objects agree on the keywords that say which values they accept. -/
def SameShape (s s' : Object) : Prop := ∀ n ∈ shapeKeywords, s.get? n = s'.get? n

namespace SameShape

theorem symm {s s' : Object} (h : SameShape s s') : SameShape s' s := fun n hn => (h n hn).symm

/-- What annotations write is beside the shape. -/
theorem write (as : Annotations) (ks : List SiteKeyword) (s : Object) :
    SameShape (as.write ks s) s :=
  fun _ hn => as.get?_write_of_not_mem s fun _ _ => name_ne_of_mem_shape hn

theorem finish {d : Descriptor N} {as : Annotations} {us : List (Use N)} {fs : List Object}
    {f : Object} (h : d.finish as us fs = .ok f) : SameShape f (d.shape us fs) := by
  obtain ⟨_, rfl⟩ := Descriptor.finish_eq_ok.mp h
  exact write as _ _

theorem pointer {n : Nat} {u : Use N} {key : String} {f : Object}
    (h : u.pointer g n key = .ok f) : SameShape f (reference key u.descriptor.nullable) := by
  obtain ⟨target, _, rfl⟩ := Use.pointer_eq_ok h
  exact write u.inherited _ _

end SameShape

namespace Use

variable {u : Use N} {us : List (Use N)} {fs : List Object} {f : Object}

/-- A wrapper has the fragment of the value inside. -/
theorem finish_of_wrapper (hk : u.descriptor.kind = .wrapper) (us : List (Use N)) (f : Object) :
    u.finish us [f] = .ok f := by
  unfold finish
  rw [if_pos (Descriptor.isWrapper_iff.mpr hk)]
  rfl

theorem finish_wrapper {f' : Object} (hk : u.descriptor.kind = .wrapper)
    (h : u.finish us [f'] = .ok f) : f = f' := by
  rw [finish_of_wrapper hk] at h
  exact (Except.ok.inj h).symm

theorem sameShape_finish (hk : u.descriptor.kind ≠ .wrapper) (h : u.finish us fs = .ok f) :
    SameShape f (u.descriptor.shape us fs) := by
  rw [finish_eq_descriptor hk] at h
  exact .finish h

end Use

/-! ## The shape keywords of each kind -/

namespace Descriptor

variable {d : Descriptor N} (us : List (Use N)) (fs : List Object)

theorem get?_shape_primitive {p : Primitive} (hk : d.kind = .primitive p) (n : String) :
    (d.shape us fs).get? n =
      if "type" = n then some (p.jsonType.keywordValue d.nullable) else none := by
  unfold shape
  rw [hk]
  exact Table.get?_insert _ _ _ _

theorem get?_shape_enumeration (hk : d.kind = .enumeration) (n : String) :
    (d.shape us fs).get? n = if "enum" = n then
      some (.array (d.elementNames.map .string ++ if d.nullable then [.null] else []))
      else none := by
  unfold shape
  rw [hk]
  exact Table.get?_insert _ _ _ _

theorem get?_shape_marker (hk : d.kind = .marker) (n : String) :
    (d.shape us fs).get? n = none := by
  unfold shape
  rw [hk]
  rfl

/-- The fragments of the children under the names of the elements. -/
def properties (d : Descriptor N) (fs : List Object) : List (String × Json) :=
  List.zipWith (fun e f => (e.name, .object f)) d.elements fs

theorem map_fst_properties {fs : List Object} (h : d.elements.length = fs.length) :
    (d.properties fs).map Prod.fst = d.elementNames := by
  have hnames : (d.properties fs).map Prod.fst =
      ((d.elements.zip fs).map Prod.fst).map Element.name := by
    unfold properties
    rw [← List.map_uncurry_zip_eq_zipWith, List.map_map, List.map_map]
    rfl
  rw [hnames, List.map_fst_zip (Nat.le_of_eq h)]
  rfl

/-- Under different names every fragment is found. -/
theorem get?_properties {fs : List Object} (h : d.elements.length = fs.length)
    (hn : d.elementNames.Nodup) {e : Element N} {f : Object} (hp : (e, f) ∈ d.elements.zip fs) :
    (Table.ofList (d.properties fs)).get? e.name = some (.object f) := by
  have hnodup : ((d.properties fs).map Prod.fst).Nodup := by rw [map_fst_properties h]; exact hn
  rw [Table.get?_ofList hnodup]
  exact Table.find_of_nodup hnodup (mem_zipWith.mpr ⟨(e, f), hp, rfl⟩)

theorem get?_shape_record (hk : d.kind = .record) (n : String) :
    (d.shape us fs).get? n =
      if "required" = n ∧ d.required ≠ [] then some (Json.strings d.required)
      else if "properties" = n then some (Json.ofEntries (d.properties fs))
      else if "type" = n then some (JsonType.object.keywordValue d.nullable) else none := by
  have hbase : ((Table.empty.insert "type" (JsonType.object.keywordValue d.nullable)).insert
      "properties" (Json.ofEntries (d.properties fs))).get? n =
        if "properties" = n then some (Json.ofEntries (d.properties fs))
        else if "type" = n then some (JsonType.object.keywordValue d.nullable) else none := by
    rw [Table.get?_insert, Table.get?_insert]
    rfl
  unfold shape
  rw [hk]
  change (d.writeRequired _).get? n = _
  unfold writeRequired
  by_cases hr : d.required = []
  · rw [if_pos (by rw [hr]; rfl), if_neg (by rintro ⟨_, h⟩; exact h hr)]
    exact hbase
  · rw [if_neg (by simpa using hr), Table.get?_insert]
    by_cases hn : "required" = n
    · rw [if_pos hn, if_pos ⟨hn, hr⟩]
    · rw [if_neg hn, if_neg (by rintro ⟨h, _⟩; exact hn h)]
      exact hbase

theorem get?_shape_list (hk : d.kind = .list) (f : Object) (n : String) :
    (d.shape us [f]).get? n = if "items" = n then some (.object f)
      else if "type" = n then some (JsonType.array.keywordValue d.nullable) else none := by
  unfold shape
  rw [hk]
  change ((Table.empty.insert "type" _).insert "items" _).get? n = _
  rw [Table.get?_insert, Table.get?_insert]
  rfl

theorem get?_shape_map (hk : d.kind = .map) (f : Object) (n : String) :
    (d.shape us [f]).get? n = if "additionalProperties" = n then some (.object f)
      else if "type" = n then some (JsonType.object.keywordValue d.nullable) else none := by
  unfold shape
  rw [hk]
  change ((Table.empty.insert "type" _).insert "additionalProperties" _).get? n = _
  rw [Table.get?_insert, Table.get?_insert]
  rfl

/-- The variants, each with its name. -/
def variants (us : List (Use N)) (fs : List Object) : List Object :=
  List.zipWith (fun u f => taggedVariant u.descriptor.variantName f) us fs

theorem get?_shape_polymorphic {h : Hierarchy} (hk : d.kind = .polymorphic h) (n : String) :
    (d.shape us fs).get? n = if "anyOf" = n then
      some (.array (((if d.nullable then [nullFragment] else []) ++ variants us fs).map .object))
      else none := by
  unfold shape
  rw [hk]
  exact Table.get?_insert _ _ _ _

end Descriptor

end TypeSchema
