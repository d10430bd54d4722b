/-
  Putting definitions back where pointers to them stand.

  `expand` follows the pointers of a fragment, and the pointers of the definitions it finds, up to
  some depth. Where no definition leads to itself there is a depth beyond which nothing changes
  (`Expands`). A finished fragment is expanded by expanding those of its parts
  (`Use.expands_finish`), a pointer by expanding the definition and writing the annotations that
  stand beside the pointer over it (`expands_reference`).
-/
import TypeSchema.Proofs.Definitions
import TypeSchema.Proofs.Nullify

namespace TypeSchema

variable {N : Type} {g : Graph N}

/-- The key of the definition that a `$ref` leads to. -/
def refKey? : Json → Option String
  | .string s =>
    let start := "#/$defs/".toList
    if start.isPrefixOf s.toList then some (String.ofList (s.toList.drop start.length)) else none
  | _ => none

/-- The definition that a pointer leads to. -/
def pointed? (defs : String → Option Object) (s : Object) : Option Object :=
  ((s.get? "$ref").bind refKey?).bind defs

/-- The pointer of a schema that is a choice between `null` and that pointer. -/
def nullablePointer? (defs : String → Option Object) (s : Object) : Option Object :=
  match s.get? "anyOf" with
  | some (.array [first, .object p]) =>
    if first.isNullSchema && (pointed? defs p).isSome then some p else none
  | _ => none

namespace Json

def mapObject (F : Object → Object) : Json → Json
  | .object s => .object (F s)
  | j => j

/-- Applies `F` to the schemas that stand under the keyword. -/
def mapSchemas (F : Object → Object) (keyword : String) (j : Json) : Json :=
  if keyword = "items" ∨ keyword = "additionalProperties" then j.mapObject F
  else if keyword = "properties" then j.mapObject fun ps => ps.mapEntries fun _ => mapObject F
  else if keyword = "anyOf" ∨ keyword = "allOf" then
    match j with
    | .array js => .array (js.map (mapObject F))
    | j => j
  else j

end Json

/-- Applies `F` to the schemas right inside a schema. -/
def mapSubschemas (F : Object → Object) (s : Object) : Object := s.mapEntries (Json.mapSchemas F)

/-- Puts the expanded definitions in the place of the pointers to them, at every schema position.
What stands beside a pointer is written over the definition. -/
def expand (defs : String → Option Object) : Nat → Object → Object
  | 0, s => s
  | n + 1, s =>
    match pointed? defs s with
    | some t => (expand defs n t).merge (s.erase "$ref")
    | none =>
      match nullablePointer? defs s with
      | some p => (nullify (expand defs n p)).merge (s.erase "anyOf")
      | none => mapSubschemas (expand defs n) s

/-- Beyond some depth the expansion of `s` is `s'`. -/
def Expands (defs : String → Option Object) (s s' : Object) : Prop :=
  ∃ depth, ∀ n ≥ depth, expand defs n s = s'

variable {defs : String → Option Object}

/-! ## One step -/

theorem refKey?_refTo (key : String) : refKey? (refTo key) = some key := by
  unfold refTo refKey?
  simp

theorem pointed?_eq_none {s : Object} (h : s.get? "$ref" = none) : pointed? defs s = none := by
  unfold pointed?
  rw [h]
  rfl

theorem nullablePointer?_eq_none {s : Object} (h : s.get? "anyOf" = none) :
    nullablePointer? defs s = none := by
  unfold nullablePointer?
  rw [h]

theorem nullablePointer?_congr {s s' : Object} (h : s.get? "anyOf" = s'.get? "anyOf") :
    nullablePointer? defs s = nullablePointer? defs s' := by
  unfold nullablePointer?
  rw [h]

/-- A schema that is no pointer, nullable or not, is expanded inside. -/
theorem expand_succ {s : Object} (h : pointed? defs s = none)
    (h' : nullablePointer? defs s = none) (n : Nat) :
    expand defs (n + 1) s = mapSubschemas (expand defs n) s := by
  rw [expand, h, h']

theorem mapSubschemas_insert (F : Object → Object) (s : Object) (k : String) (v : Json) :
    mapSubschemas F (s.insert k v) = (mapSubschemas F s).insert k (v.mapSchemas F k) :=
  Table.mapEntries_insert _ s k v

theorem mapSubschemas_ofList (F : Object → Object) (es : List (String × Json)) :
    mapSubschemas F (Table.ofList es) =
      Table.ofList (es.map fun e => (e.1, e.2.mapSchemas F e.1)) :=
  Table.mapEntries_ofList _ es

theorem Json.mapSchemas_anyOf (F : Object → Object) (ss : List Object) :
    (Json.array (ss.map .object)).mapSchemas F "anyOf" =
      Json.array ((ss.map F).map .object) := by
  change Json.array ((ss.map .object).map (mapObject F)) = _
  rw [List.map_map, List.map_map]
  rfl

/-- What annotations write holds no schemas. -/
theorem mapSubschemas_write (F : Object → Object) (as : Annotations) (ks : List SiteKeyword)
    (s : Object) : mapSubschemas F (as.write ks s) = as.write ks (mapSubschemas F s) := by
  have hvalue : ∀ (k : SiteKeyword) (v : Json), v.mapSchemas F k.name = v := by
    intro k v
    have hne : ∀ n ∈ shapeKeywords, k.name ≠ n := fun n hn => name_ne_of_mem_shape hn
    unfold Json.mapSchemas
    rw [if_neg, if_neg (hne _ (by decide)), if_neg]
    · rintro (h | h)
      · exact hne _ (by decide) h
      · exact hne _ (by decide) h
    · rintro (h | h)
      · exact hne _ (by decide) h
      · exact hne _ (by decide) h
  induction ks generalizing s with
  | nil => rfl
  | cons k ks ih =>
    have hput : mapSubschemas F (as.put s k) = as.put (mapSubschemas F s) k := by
      unfold Annotations.put
      cases as.value? k with
      | none => rfl
      | some v =>
        dsimp only
        rw [mapSubschemas_insert, hvalue]
    change mapSubschemas F (as.write ks (as.put s k)) = _
    rw [ih, hput]
    rfl

/-! ## Fixed fragments -/

theorem expand_nullFragment (n : Nat) : expand defs n nullFragment = nullFragment := by
  cases n with
  | zero => rfl
  | succ n => rfl

theorem expand_literal (name : String) (n : Nat) :
    expand defs n (literal name) = literal name := by
  cases n with
  | zero => rfl
  | succ n => rfl

theorem expand_tag (name : String) (n : Nat) :
    expand defs n (Context.tag Context.defaultDiscriminator name) =
      Context.tag Context.defaultDiscriminator name := by
  cases n with
  | zero => rfl
  | succ n =>
    rw [expand_succ (pointed?_eq_none (plain_tag name).ref)
      (nullablePointer?_eq_none (by rw [get?_tag]; rfl)), tag_eq, mapSubschemas_ofList]
    have hproperties : (Json.ofEntries [("type", .object (literal name))]).mapSchemas
        (expand defs n) "properties" = Json.ofEntries [("type", .object (literal name))] := by
      change Json.object (Table.mapEntries _ (Table.ofList _)) = _
      rw [Table.mapEntries_ofList]
      change Json.ofEntries [("type", .object (expand defs n (literal name)))] = _
      rw [expand_literal]
    simp only [List.map_cons, List.map_nil, hproperties]
    rfl

theorem expand_taggedVariant (name : String) (body : Object) (n : Nat) :
    expand defs (n + 1) (taggedVariant name body) = taggedVariant name (expand defs n body) := by
  rw [expand_succ (pointed?_eq_none (plain_taggedVariant name body).ref)
    (nullablePointer?_eq_none (by rw [get?_taggedVariant]; rfl))]
  unfold taggedVariant
  rw [mapSubschemas_ofList]
  change Table.ofList [("allOf", Json.array [.object (expand defs n body), .object (expand defs n
    (Context.tag Context.defaultDiscriminator name))])] = _
  rw [expand_tag]

/-! ## Finished fragments -/

section

variable {u : Use N} {us : List (Use N)} {fs fs' : List Object}

theorem map_variants {n : Nat} (h : fs.map (expand defs n) = fs') :
    (Descriptor.variants us fs).map (expand defs (n + 1)) = Descriptor.variants us fs' := by
  unfold Descriptor.variants
  rw [← h, List.map_zipWith, List.zipWith_map_right]
  simp only [expand_taggedVariant]

theorem mapSchemas_properties (d : Descriptor N) {F : Object → Object} (h : fs.map F = fs') :
    (Json.ofEntries (d.properties fs)).mapSchemas F "properties" =
      Json.ofEntries (d.properties fs') := by
  change Json.object (Table.mapEntries _ (Table.ofList _)) = _
  rw [Table.mapEntries_ofList]
  unfold Descriptor.properties
  rw [← h, List.map_zipWith, List.zipWith_map_right]
  rfl

theorem mapSubschemas_writeRequired (d : Descriptor N) (F : Object → Object) (s : Object) :
    mapSubschemas F (d.writeRequired s) = d.writeRequired (mapSubschemas F s) := by
  unfold Descriptor.writeRequired
  split
  · rfl
  · exact mapSubschemas_insert _ _ _ _

/-- The schemas in the shape of a kind are the fragments of the parts. Those of variants stand one
step deeper than the others. -/
theorem mapSubschemas_shape (hp : Parts g u us) (hlen : us.length = fs.length) {n : Nat}
    (h : fs.map (expand defs n) = fs') (h' : fs.map (expand defs (n + 1)) = fs') :
    mapSubschemas (expand defs (n + 1)) (u.descriptor.shape us fs) =
      u.descriptor.shape us fs' := by
  have htyped : ∀ v, mapSubschemas (expand defs (n + 1)) (Table.empty.insert "type" v) =
      Table.empty.insert "type" v := fun v => mapSubschemas_insert _ _ _ _
  unfold Descriptor.shape
  cases hp with
  | primitive p hk =>
    rw [hk]
    exact htyped _
  | enumeration hk =>
    rw [hk]
    exact mapSubschemas_insert _ _ _ _
  | marker hk =>
    rw [hk]
    rfl
  | record hk =>
    rw [hk]
    change mapSubschemas _ (u.descriptor.writeRequired ((Table.empty.insert "type" _).insert
      "properties" (Json.ofEntries (u.descriptor.properties fs)))) =
        u.descriptor.writeRequired ((Table.empty.insert "type" _).insert "properties"
          (Json.ofEntries (u.descriptor.properties fs')))
    rw [mapSubschemas_writeRequired, mapSubschemas_insert, htyped, mapSchemas_properties _ h']
  | list item hk hes =>
    rw [hk]
    obtain ⟨f, rfl⟩ := List.length_eq_one_iff.mp hlen.symm
    rw [← h']
    change mapSubschemas _ ((Table.empty.insert "type" _).insert "items" (.object f)) = _
    rw [mapSubschemas_insert, htyped]
    rfl
  | map key value hk hes =>
    rw [hk]
    obtain ⟨f, rfl⟩ := List.length_eq_one_iff.mp hlen.symm
    rw [← h']
    change mapSubschemas _ ((Table.empty.insert "type" _).insert "additionalProperties"
      (.object f)) = _
    rw [mapSubschemas_insert, htyped]
    rfl
  | polymorphic k hk =>
    rw [hk]
    have hnull : (if u.descriptor.nullable then [nullFragment] else []).map
        (expand defs (n + 1)) = if u.descriptor.nullable then [nullFragment] else [] := by
      split
      · rw [List.map_singleton, expand_nullFragment]
      · rfl
    change mapSubschemas _ (Table.empty.insert "anyOf" (Json.array (((if u.descriptor.nullable
      then [nullFragment] else []) ++ Descriptor.variants _ fs).map .object))) =
      Table.empty.insert "anyOf" (Json.array (((if u.descriptor.nullable then [nullFragment]
        else []) ++ Descriptor.variants _ fs').map .object))
    rw [mapSubschemas_insert, Json.mapSchemas_anyOf, List.map_append, hnull, map_variants h]
    rfl
  | wrapper value hk hes =>
    rw [hk]
    rfl

theorem get?_anyOf_shape (hp : Parts g u us) (hlen : us.length = fs.length)
    (hk : ∀ k, u.descriptor.kind ≠ .polymorphic k) :
    (u.descriptor.shape us fs).get? "anyOf" = none := by
  cases hp with
  | primitive p hk => exact Descriptor.get?_shape_primitive _ _ hk _
  | enumeration hk => exact Descriptor.get?_shape_enumeration _ _ hk _
  | marker hk => exact Descriptor.get?_shape_marker _ _ hk _
  | record hk =>
    rw [Descriptor.get?_shape_record _ _ hk, if_neg (by simp)]
    rfl
  | list item hk hes =>
    obtain ⟨f, rfl⟩ := List.length_eq_one_iff.mp hlen.symm
    exact Descriptor.get?_shape_list _ hk _ _
  | map key value hk hes =>
    obtain ⟨f, rfl⟩ := List.length_eq_one_iff.mp hlen.symm
    exact Descriptor.get?_shape_map _ hk _ _
  | polymorphic k hkp => exact absurd hkp (hk k)
  | wrapper value hk hes =>
    unfold Descriptor.shape
    rw [hk]
    rfl

theorem nullablePointer?_of_plain {s : Object} {ss : List Object}
    (h : s.get? "anyOf" = some (.array (ss.map .object))) (hplain : ∀ t ∈ ss, Plain t) :
    nullablePointer? defs s = none := by
  unfold nullablePointer?
  rw [h]
  split
  · next first p heq =>
    have hss := Json.array.inj (Option.some.inj heq)
    have hmem : Json.object p ∈ [first, Json.object p] :=
      List.mem_cons_of_mem _ (List.mem_singleton_self _)
    rw [← hss] at hmem
    obtain ⟨t, ht, htp⟩ := List.mem_map.mp hmem
    rw [← Json.object.inj htp, pointed?_eq_none (hplain t ht).ref]
    simp
  · rfl

/-- What a shape offers a choice between are no pointers. -/
theorem nullablePointer?_shape (hp : Parts g u us) (hlen : us.length = fs.length) :
    nullablePointer? defs (u.descriptor.shape us fs) = none := by
  by_cases hk : ∃ k, u.descriptor.kind = .polymorphic k
  · obtain ⟨k, hk⟩ := hk
    refine nullablePointer?_of_plain
      ((Descriptor.get?_shape_polymorphic us fs hk _).trans (if_pos rfl)) fun s hs => ?_
    rcases List.mem_append.mp hs with hs | hs
    · split at hs
      · rw [List.mem_singleton.mp hs]
        exact plain_nullFragment
      · cases hs
    · obtain ⟨p, _, rfl⟩ := mem_zipWith.mp hs
      exact plain_taggedVariant _ _
  · exact nullablePointer?_eq_none (get?_anyOf_shape hp hlen (not_exists.mp hk))

theorem exists_depth (h : List.Forall₂ (Expands defs) fs fs') :
    ∃ depth, ∀ n ≥ depth, fs.map (expand defs n) = fs' := by
  induction h with
  | nil => exact ⟨0, fun _ _ => rfl⟩
  | cons hf _ ih =>
    obtain ⟨depth, hdepth⟩ := hf
    obtain ⟨depth', hdepth'⟩ := ih
    refine ⟨depth + depth', fun n hn => ?_⟩
    rw [List.map_cons, hdepth n (by omega), hdepth' n (by omega)]

/-- A finished fragment is expanded as the fragments of the parts are. -/
theorem Use.expands_finish (hp : Parts g u us) (hlen : us.length = fs.length) {f : Object}
    (hf : u.finish us fs = .ok f) (h : List.Forall₂ (Expands defs) fs fs') :
    ∃ f', u.finish us fs' = .ok f' ∧ Expands defs f f' := by
  by_cases hk : u.descriptor.kind = .wrapper
  · obtain ⟨value, _, rfl⟩ := hp.of_wrapper hk
    obtain ⟨f₁, rfl⟩ := List.length_eq_one_iff.mp hlen.symm
    rw [List.forall₂_cons_left_iff] at h
    obtain ⟨f', _, hexpands, hnil, rfl⟩ := h
    obtain rfl := List.forall₂_nil_left_iff.mp hnil
    rw [finish_wrapper hk hf]
    exact ⟨f', finish_of_wrapper hk _ _, hexpands⟩
  · rw [finish_eq_descriptor hk, Descriptor.finish_eq_ok] at hf
    obtain ⟨hcheck, rfl⟩ := hf
    rw [finish_eq_descriptor hk]
    refine ⟨_, Descriptor.finish_eq_ok.mpr ⟨hcheck, rfl⟩, ?_⟩
    obtain ⟨depth, hdepth⟩ := exists_depth h
    refine ⟨depth + 2, fun n hn => ?_⟩
    obtain ⟨m, rfl⟩ : ∃ m, n = m + 2 := ⟨n - 2, by omega⟩
    have hshape := SameShape.write (u.inherited ++ u.descriptor.annotations)
      u.descriptor.kind.ownKeywords (u.descriptor.shape us fs)
    have hplain := (plain_shape u.descriptor us fs).of_sameShape hshape.symm
    rw [expand_succ (pointed?_eq_none hplain.ref)
      ((nullablePointer?_congr (hshape _ (by decide))).trans (nullablePointer?_shape hp hlen)),
      mapSubschemas_write, mapSubschemas_shape hp hlen (hdepth m (by omega))
        (hdepth (m + 1) (by omega))]

end

/-! ## Pointers -/

/-- Annotations written beside a keyword stay when that keyword goes. -/
theorem Annotations.erase_write (as : Annotations) (ks : List SiteKeyword) {s : Object}
    (hs : s.Ordered) {n : String} (hn : n ∈ shapeKeywords) :
    (as.write ks s).erase n = as.write ks (s.erase n) := by
  refine Table.ext_of_ordered (Table.ordered_erase (as.ordered_write ks hs) n)
    (as.ordered_write ks (Table.ordered_erase hs n)) fun n' => ?_
  rw [Table.get?_erase, as.get?_write, as.get?_write ks (s.erase n), Table.get?_erase]
  by_cases heq : n = n'
  · have hne : ∀ k ∈ ks, k.name ≠ n := fun k _ => name_ne_of_mem_shape hn
    rw [if_pos heq, if_pos heq, ← heq, as.get?_write_of_not_mem _ hne, Table.get?_empty]
    rfl
  · rw [if_neg heq, if_neg heq]

/-- Merging what annotations write is writing it. -/
theorem Annotations.merge_write (as : Annotations) (ks : List SiteKeyword) {s : Object}
    (hs : s.Ordered) : s.merge (as.write ks .empty) = as.write ks s := by
  have hempty : (as.write ks .empty).Ordered := as.ordered_write ks Table.ordered_empty
  refine Table.ext_of_ordered (Table.ordered_merge hs _) (as.ordered_write ks hs) fun n => ?_
  rw [Table.get?_merge _ hempty, ← as.get?_write]

theorem pointed?_pointer {key : String} {s : Object} (h : s.get? "$ref" = some (refTo key)) :
    pointed? defs s = defs key := by
  unfold pointed?
  rw [h, Option.bind_some, refKey?_refTo, Option.bind_some]

theorem expand_pointer {key : String} {t : Object} (h : defs key = some t) (n : Nat) :
    expand defs (n + 1) (pointer key) = expand defs n t := by
  have hpointed : pointed? defs (pointer key) = some t := by
    rw [pointed?_pointer (get?_pointer key "$ref"), h]
  rw [expand, hpointed]
  exact Table.merge_empty _

/-- A pointer becomes the expanded definition, with what stands beside the pointer. -/
theorem expands_reference {key : String} {t t' : Object} (h : defs key = some t)
    (ht : Expands defs t t') (ht' : t'.Ordered) (as : Annotations) (ks : List SiteKeyword)
    (nullable : Bool) : Expands defs (as.write ks (reference key nullable))
      (as.write ks (if nullable then nullify t' else t')) := by
  obtain ⟨depth, hdepth⟩ := ht
  have hshape : SameShape (as.write ks (reference key nullable)) (reference key nullable) :=
    SameShape.write as ks _
  have hordered := ordered_reference key nullable
  have href := (hshape "$ref" (by decide)).trans (get?_reference key nullable _)
  have hanyOf := (hshape "anyOf" (by decide)).trans (get?_reference key nullable _)
  refine ⟨depth + 2, fun n hn => ?_⟩
  obtain ⟨m, rfl⟩ : ∃ m, n = m + 2 := ⟨n - 2, by omega⟩
  cases nullable with
  | false =>
    have hpointed : pointed? defs (as.write ks (reference key false)) = some t := by
      rw [pointed?_pointer href, h]
    have herase : (reference key false).erase "$ref" = .empty := rfl
    rw [expand, hpointed]
    dsimp only
    rw [hdepth (m + 1) (by omega), as.erase_write ks hordered (by decide), herase,
      as.merge_write ks ht']
    rfl
  | true =>
    have hpointed : pointed? defs (as.write ks (reference key true)) = none :=
      pointed?_eq_none href
    have hnullable : nullablePointer? defs (as.write ks (reference key true)) =
        some (pointer key) := by
      unfold nullablePointer?
      rw [hanyOf, if_pos rfl, if_pos rfl]
      dsimp only
      rw [pointed?_pointer (get?_pointer key "$ref"), h]
      rfl
    have herase : (reference key true).erase "anyOf" = .empty := rfl
    rw [expand, hpointed, hnullable]
    dsimp only
    rw [expand_pointer h, hdepth m (by omega), as.erase_write ks hordered (by decide), herase,
      as.merge_write ks (ordered_nullify ht')]
    rfl

end TypeSchema
