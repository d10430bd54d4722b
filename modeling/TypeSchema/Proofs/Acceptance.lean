/-
  Which values a schema accepts.

  `Accepts defs s v` gives the keywords of shapes their meaning in draft 2020-12 and ignores the
  others. A pointer is looked up in `defs` by its text. One step of it is `Allows`, with a relation
  for what it says of subschemas; `accepts_object` unfolds one step, and `Accepts.induct` is its
  induction. For the fragment of each kind `Allows` is worked out once and for all.
-/
import Mathlib.Algebra.Group.Int.Defs
import Mathlib.Algebra.Group.Nat.Defs
import Mathlib.Tactic.MkIffOfInductiveProp
import TypeSchema.Proofs.Definitions
import TypeSchema.Proofs.Vocabulary

namespace TypeSchema

variable {N : Type}

/-! ## Values -/

/-- The size of a finite double in units of `2 ^ (-1075)`, the least that doubles need. -/
def Double.scaled (x : Double) : Int :=
  let significand := if x.exponent = 0 then x.fraction else 2 ^ 52 + x.fraction
  let size := significand * 2 ^ max 1 x.exponent
  if x.isNegative then -size else size

namespace Number

def scaled : Number → Int
  | .int i => i * 2 ^ 1075
  | .double x => x.scaled

/-- The number has no fractional part, in whichever way it is written. -/
def IsIntegral (n : Number) : Prop := 2 ^ 1075 ∣ n.scaled

end Number

/-- Equality of JSON values: numbers by their size, objects whatever the order of members. -/
inductive Json.Same : Json → Json → Prop
  | null : Same .null .null
  | bool (b : Bool) : Same (.bool b) (.bool b)
  | number {n m : Number} : n.scaled = m.scaled → Same (.number n) (.number m)
  | string (s : String) : Same (.string s) (.string s)
  | array {vs ws : List Json} : vs.length = ws.length →
    (∀ p ∈ vs.zip ws, Same p.1 p.2) → Same (.array vs) (.array ws)
  | object {ms ns : Object} : (∀ k, (ms.get? k).isSome = (ns.get? k).isSome) →
    (∀ k v w, ms.get? k = some v → ns.get? k = some w → Same v w) → Same (.object ms) (.object ns)

/-- The value is of the JSON type of this name. An integer may be written with a point. -/
def OfType (name : String) : Json → Prop
  | .string _ => name = "string"
  | .number n => name = "number" ∨ name = "integer" ∧ n.IsIntegral
  | .bool _ => name = "boolean"
  | .array _ => name = "array"
  | .object _ => name = "object"
  | .null => name = "null"

/-! ## Keywords -/

/-- What the value of the keyword `type` says: a name, or a list of names. -/
inductive TypeAllows (v : Json) : Json → Prop
  | one {name : String} : OfType name v → TypeAllows v (.string name)
  | some {name : String} {names : List Json} : .string name ∈ names → OfType name v →
    TypeAllows v (.array names)

/-- The keywords of `s` allow `v`, if `R` says which subschemas accept which values. -/
@[mk_iff]
structure Allows (defs : String → Option Object) (R : Json → Json → Prop) (s : Object)
    (v : Json) : Prop where
  type : ∀ j, s.get? "type" = some j → TypeAllows v j
  enum : ∀ js, s.get? "enum" = some (.array js) → ∃ j ∈ js, j.Same v
  properties : ∀ ps, s.get? "properties" = some (.object ps) → ∀ ms, v = .object ms →
    ∀ k t w, ps.get? k = some t → ms.get? k = some w → R t w
  required : ∀ names, s.get? "required" = some (.array names) → ∀ ms, v = .object ms →
    ∀ k, .string k ∈ names → (ms.get? k).isSome
  items : ∀ t, s.get? "items" = some t → ∀ ws, v = .array ws → ∀ w ∈ ws, R t w
  /-- Of the members that are not among the properties. -/
  additional : ∀ t, s.get? "additionalProperties" = some t → ∀ ms, v = .object ms →
    ∀ k w, ms.get? k = some w →
      (∀ ps, s.get? "properties" = some (.object ps) → ps.get? k = none) → R t w
  anyOf : ∀ js, s.get? "anyOf" = some (.array js) → ∃ j ∈ js, R j v
  allOf : ∀ js, s.get? "allOf" = some (.array js) → ∀ j ∈ js, R j v
  ref : ∀ j, s.get? "$ref" = some j → ∃ key t, j = refTo key ∧ defs key = some t ∧ R (.object t) v

/-- The values that a schema accepts. The rule for objects has the keywords of `Allows`, with the
alternative of `anyOf` and the target of `$ref` chosen beforehand. -/
inductive Accepts (defs : String → Option Object) : Json → Json → Prop
  | bool (v : Json) : Accepts defs (.bool true) v
  | object {s : Object} {v : Json} (branch target : Json)
    (type : ∀ j, s.get? "type" = some j → TypeAllows v j)
    (enum : ∀ js, s.get? "enum" = some (.array js) → ∃ j ∈ js, j.Same v)
    (properties : ∀ ps, s.get? "properties" = some (.object ps) → ∀ ms, v = .object ms →
      ∀ k t w, ps.get? k = some t → ms.get? k = some w → Accepts defs t w)
    (required : ∀ names, s.get? "required" = some (.array names) → ∀ ms, v = .object ms →
      ∀ k, .string k ∈ names → (ms.get? k).isSome)
    (items : ∀ t, s.get? "items" = some t → ∀ ws, v = .array ws → ∀ w ∈ ws, Accepts defs t w)
    (additional : ∀ t, s.get? "additionalProperties" = some t → ∀ ms, v = .object ms →
      ∀ k w, ms.get? k = some w →
        (∀ ps, s.get? "properties" = some (.object ps) → ps.get? k = none) → Accepts defs t w)
    (anyOf : ∀ js, s.get? "anyOf" = some (.array js) → branch ∈ js)
    (chosen : ∀ js, s.get? "anyOf" = some (.array js) → Accepts defs branch v)
    (allOf : ∀ js, s.get? "allOf" = some (.array js) → ∀ j ∈ js, Accepts defs j v)
    (ref : ∀ j, s.get? "$ref" = some j → ∃ key t, j = refTo key ∧ defs key = some t ∧
      target = .object t)
    (pointed : ∀ j, s.get? "$ref" = some j → Accepts defs target v) :
    Accepts defs (.object s) v

section

variable {defs : String → Option Object} {R R' : Json → Json → Prop} {s : Object} {v : Json}

theorem Allows.mono (hR : ∀ t w, R t w → R' t w) (h : Allows defs R s v) :
    Allows defs R' s v where
  type := h.type
  enum := h.enum
  properties := fun ps hps ms hv k t w ht hw => hR t w (h.properties ps hps ms hv k t w ht hw)
  required := h.required
  items := fun t ht ws hv w hw => hR t w (h.items t ht ws hv w hw)
  additional := fun t ht ms hv k w hw hps => hR t w (h.additional t ht ms hv k w hw hps)
  anyOf := fun js hjs => (h.anyOf js hjs).imp fun j hj => ⟨hj.1, hR j v hj.2⟩
  allOf := fun js hjs j hj => hR j v (h.allOf js hjs j hj)
  ref := by
    intro j hj
    obtain ⟨key, t, hkey, ht, hv⟩ := h.ref j hj
    exact ⟨key, t, hkey, ht, hR _ v hv⟩

/-- The keywords are read through look-ups, and definitions are not among them. -/
theorem Allows.of_get?_eq {s' : Object}
    (hs : ∀ n ∈ shapeKeywords, n ≠ "$defs" → s.get? n = s'.get? n) (h : Allows defs R s v) :
    Allows defs R s' v := by
  have hget : ∀ n ∈ shapeKeywords, n ≠ "$defs" → s'.get? n = s.get? n := fun n hn hd =>
    (hs n hn hd).symm
  refine ⟨?_, ?_, ?_, ?_, ?_, ?_, ?_, ?_, ?_⟩
  · rw [hget "type" (by decide) (by decide)]
    exact h.type
  · rw [hget "enum" (by decide) (by decide)]
    exact h.enum
  · rw [hget "properties" (by decide) (by decide)]
    exact h.properties
  · rw [hget "required" (by decide) (by decide)]
    exact h.required
  · rw [hget "items" (by decide) (by decide)]
    exact h.items
  · rw [hget "additionalProperties" (by decide) (by decide),
      hget "properties" (by decide) (by decide)]
    exact h.additional
  · rw [hget "anyOf" (by decide) (by decide)]
    exact h.anyOf
  · rw [hget "allOf" (by decide) (by decide)]
    exact h.allOf
  · rw [hget "$ref" (by decide) (by decide)]
    exact h.ref

theorem SameShape.allows_iff {s' : Object} (h : SameShape s s') :
    Allows defs R s v ↔ Allows defs R s' v :=
  ⟨fun ha => ha.of_get?_eq fun n hn _ => h n hn,
    fun ha => ha.of_get?_eq fun n hn _ => (h n hn).symm⟩

/-- An object accepts what its keywords allow. -/
theorem accepts_object : Accepts defs (.object s) v ↔ Allows defs (Accepts defs) s v := by
  constructor
  · intro h
    cases h with
    | object branch target type enum properties required items additional anyOf chosen allOf ref
        pointed =>
      refine ⟨type, enum, properties, required, items, additional, fun js hjs => ?_, allOf,
        fun j hj => ?_⟩
      · exact ⟨branch, anyOf js hjs, chosen js hjs⟩
      · obtain ⟨key, t, hkey, ht, rfl⟩ := ref j hj
        exact ⟨key, t, hkey, ht, pointed j hj⟩
  · intro h
    obtain ⟨branch, hbranch⟩ : ∃ b, ∀ js, s.get? "anyOf" = some (.array js) →
        b ∈ js ∧ Accepts defs b v := by
      cases hj : s.get? "anyOf" with
      | none => exact ⟨.null, fun js hjs => by cases hjs⟩
      | some j =>
        by_cases harray : ∃ js, j = .array js
        · obtain ⟨js, rfl⟩ := harray
          obtain ⟨b, hb⟩ := h.anyOf js hj
          refine ⟨b, fun js' hjs' => ?_⟩
          cases hjs'
          exact hb
        · refine ⟨.null, fun js hjs => absurd ⟨js, Option.some.inj hjs⟩ harray⟩
    obtain ⟨target, htarget⟩ : ∃ t, ∀ j, s.get? "$ref" = some j →
        (∃ key t', j = refTo key ∧ defs key = some t' ∧ t = .object t') ∧ Accepts defs t v := by
      cases hj : s.get? "$ref" with
      | none => exact ⟨.null, fun j hj => by cases hj⟩
      | some j =>
        obtain ⟨key, t, hkey, ht, hv⟩ := h.ref j hj
        refine ⟨.object t, fun j' hj' => ?_⟩
        cases hj'
        exact ⟨⟨key, t, hkey, ht, rfl⟩, hv⟩
    exact .object branch target h.type h.enum h.properties h.required h.items h.additional
      (fun js hjs => (hbranch js hjs).1) (fun js hjs => (hbranch js hjs).2) h.allOf
      (fun j hj => (htarget j hj).1) fun j hj => (htarget j hj).2

/-- What an object accepts is shown from what its keywords allow, while the claim may be used for
every subschema. -/
theorem Accepts.induct {P : Json → Json → Prop} (hbool : ∀ v, P (.bool true) v)
    (hobject : ∀ s v, Allows defs (fun t w => Accepts defs t w ∧ P t w) s v → P (.object s) v)
    {t : Json} (h : Accepts defs t v) : P t v := by
  induction h with
  | bool v => exact hbool v
  | object branch target type enum properties required items additional anyOf chosen allOf ref
      pointed ihproperties ihitems ihadditional ihchosen ihallOf ihpointed =>
    refine hobject _ _ ⟨type, enum, ?_, required, ?_, ?_, fun js hjs => ?_, ?_, fun j hj => ?_⟩
    · exact fun ps hps ms hv k t w ht hw =>
        ⟨properties ps hps ms hv k t w ht hw, ihproperties ps hps ms hv k t w ht hw⟩
    · exact fun t ht ws hv w hw => ⟨items t ht ws hv w hw, ihitems t ht ws hv w hw⟩
    · exact fun t ht ms hv k w hw hps =>
        ⟨additional t ht ms hv k w hw hps, ihadditional t ht ms hv k w hw hps⟩
    · exact ⟨branch, anyOf js hjs, chosen js hjs, ihchosen js hjs⟩
    · exact fun js hjs j hj => ⟨allOf js hjs j hj, ihallOf js hjs j hj⟩
    · obtain ⟨key, t, hkey, ht, rfl⟩ := ref j hj
      exact ⟨key, t, hkey, ht, pointed j hj, ihpointed j hj⟩

/-! ## Types -/

theorem ofType_null : OfType "null" v ↔ v = .null := by
  cases v <;> simp [OfType]

theorem ofType_array : OfType "array" v ↔ ∃ ws, v = .array ws := by
  cases v <;> simp [OfType]

theorem ofType_object : OfType "object" v ↔ ∃ ms, v = .object ms := by
  cases v <;> simp [OfType]

theorem typeAllows_string {name : String} : TypeAllows v (.string name) ↔ OfType name v := by
  constructor
  · intro h
    cases h with
    | one h => exact h
  · exact .one

theorem typeAllows_array {names : List Json} :
    TypeAllows v (.array names) ↔ ∃ name, .string name ∈ names ∧ OfType name v := by
  constructor
  · intro h
    cases h with
    | some hmem h => exact ⟨_, hmem, h⟩
  · rintro ⟨name, hmem, h⟩
    exact .some hmem h

theorem typeAllows_keywordValue (t : JsonType) (nullable : Bool) :
    TypeAllows v (t.keywordValue nullable) ↔ OfType t.name v ∨ nullable = true ∧ v = .null := by
  cases nullable with
  | false =>
    change TypeAllows v (.string t.name) ↔ _
    rw [typeAllows_string]
    simp
  | true =>
    change TypeAllows v (.array [.string t.name, .string "null"]) ↔ _
    rw [typeAllows_array]
    simp [or_and_right, exists_or, ofType_null]

/-! ## Fixed fragments -/

theorem Json.same_string {a : String} : (Json.string a).Same v ↔ v = .string a := by
  constructor
  · intro h
    cases h
    rfl
  · rintro rfl
    exact .string a

theorem Json.same_null : Json.null.Same v ↔ v = .null := by
  constructor
  · intro h
    cases h
    rfl
  · rintro rfl
    exact .null

theorem accepts_nullFragment : Accepts defs (.object nullFragment) v ↔ v = .null := by
  have htype : TypeAllows v (.string "null") ↔ v = .null := typeAllows_string.trans ofType_null
  rw [accepts_object, allows_iff]
  simpa [get?_nullFragment] using htype

theorem accepts_literal {name : String} :
    Accepts defs (.object (literal name)) v ↔ v = .string name := by
  rw [accepts_object, allows_iff]
  simp [get?_literal, Json.strings, Json.same_string]

/-- The tag of a variant bears on objects only. -/
theorem accepts_tag (name : String) :
    Accepts defs (.object (Context.tag Context.defaultDiscriminator name)) v ↔
      ∀ ms, v = .object ms → ms.get? "type" = some (.string name) := by
  have hget : ∀ k, (Table.ofList [("type", Json.object (literal name))]).get? k =
      if "type" = k then some (.object (literal name)) else none :=
    fun k => Table.get?_ofList_singleton _ k _
  rw [accepts_object, allows_iff]
  simp only [get?_tag, Json.ofEntries, Json.strings]
  constructor
  · rintro ⟨-, -, hproperties, hrequired, -⟩ ms hv
    have hsome := hrequired _ rfl ms hv "type" (by simp)
    obtain ⟨w, hw⟩ := Option.isSome_iff_exists.mp hsome
    have hw' := hproperties _ rfl ms hv "type" _ w (hget "type") hw
    rw [hw, accepts_literal.mp hw']
  · intro h
    refine ⟨by simp, by simp, ?_, ?_, by simp, by simp, by simp, by simp, by simp⟩
    · intro ps hps ms hv k t w ht hw
      cases hps
      rw [hget] at ht
      split at ht
      · next hk =>
        cases ht
        rw [← hk, h ms hv] at hw
        cases hw
        exact accepts_literal.mpr rfl
      · cases ht
    · intro names hnames ms hv k hk
      cases hnames
      obtain rfl : k = "type" := by simpa using hk
      rw [h ms hv]
      rfl

theorem allows_taggedVariant (name : String) (body : Object) :
    Allows defs R (taggedVariant name body) v ↔ R (.object body) v ∧
      R (.object (Context.tag Context.defaultDiscriminator name)) v := by
  simp [allows_iff, get?_taggedVariant]

theorem allows_pointer (key : String) :
    Allows defs R (pointer key) v ↔ ∃ t, defs key = some t ∧ R (.object t) v := by
  simp [allows_iff, get?_pointer, refTo]

theorem allows_reference (key : String) (nullable : Bool) :
    Allows defs R (reference key nullable) v ↔
      if nullable then R (.object nullFragment) v ∨ R (.object (pointer key)) v
      else ∃ t, defs key = some t ∧ R (.object t) v := by
  cases nullable with
  | false => exact allows_pointer key
  | true => simp [allows_iff, get?_reference]

/-! ## The shape of each kind -/

variable {g : Graph N} {d : Descriptor N} {us : List (Use N)} {fs : List Object}

theorem allows_primitive {p : Primitive} (hk : d.kind = .primitive p) :
    Allows defs R (d.shape us fs) v ↔
      OfType p.jsonType.name v ∨ d.nullable = true ∧ v = .null := by
  simp [allows_iff, Descriptor.get?_shape_primitive us fs hk, typeAllows_keywordValue]

theorem allows_enumeration (hk : d.kind = .enumeration) :
    Allows defs R (d.shape us fs) v ↔
      (∃ e ∈ d.elements, v = .string e.name) ∨ d.nullable = true ∧ v = .null := by
  simp [allows_iff, Descriptor.get?_shape_enumeration us fs hk, Descriptor.elementNames,
    or_and_right, exists_or, Json.same_string, Json.same_null]

theorem allows_marker (hk : d.kind = .marker) : Allows defs R (d.shape us fs) v := by
  simp [allows_iff, Descriptor.get?_shape_marker us fs hk]

theorem allows_list (hk : d.kind = .list) {f : Object} :
    Allows defs R (d.shape us [f]) v ↔
      (∃ ws, v = .array ws ∧ ∀ w ∈ ws, R (.object f) w) ∨ d.nullable = true ∧ v = .null := by
  have hview : Allows defs R (d.shape us [f]) v ↔
      (OfType "array" v ∨ d.nullable = true ∧ v = .null) ∧
        ∀ ws, v = .array ws → ∀ w ∈ ws, R (.object f) w := by
    simp [allows_iff, Descriptor.get?_shape_list us hk, typeAllows_keywordValue, JsonType.name]
  rw [hview, ofType_array]
  constructor
  · rintro ⟨⟨ws, rfl⟩ | hnull, hitems⟩
    · exact Or.inl ⟨ws, rfl, hitems ws rfl⟩
    · exact Or.inr hnull
  · rintro (⟨ws, rfl, hitems⟩ | ⟨hd, rfl⟩)
    · refine ⟨Or.inl ⟨ws, rfl⟩, fun ws' hws => ?_⟩
      cases hws
      exact hitems
    · exact ⟨Or.inr ⟨hd, rfl⟩, fun ws hws => by cases hws⟩

theorem allows_map (hk : d.kind = .map) {f : Object} :
    Allows defs R (d.shape us [f]) v ↔
      (∃ ms, v = .object ms ∧ ∀ k w, ms.get? k = some w → R (.object f) w) ∨
        d.nullable = true ∧ v = .null := by
  have hview : Allows defs R (d.shape us [f]) v ↔
      (OfType "object" v ∨ d.nullable = true ∧ v = .null) ∧
        ∀ ms, v = .object ms → ∀ k w, ms.get? k = some w → R (.object f) w := by
    simp [allows_iff, Descriptor.get?_shape_map us hk, typeAllows_keywordValue, JsonType.name]
  rw [hview, ofType_object]
  constructor
  · rintro ⟨⟨ms, rfl⟩ | hnull, hmembers⟩
    · exact Or.inl ⟨ms, rfl, hmembers ms rfl⟩
    · exact Or.inr hnull
  · rintro (⟨ms, rfl, hmembers⟩ | ⟨hd, rfl⟩)
    · refine ⟨Or.inl ⟨ms, rfl⟩, fun ms' hms => ?_⟩
      cases hms
      exact hmembers
    · exact ⟨Or.inr ⟨hd, rfl⟩, fun ms hms => by cases hms⟩

/-- Only the elements that are not optional are required, and only members that are named among
the properties are looked at. -/
theorem allows_record_members (hk : d.kind = .record) :
    Allows defs R (d.shape us fs) v ↔
      (∃ ms, v = .object ms ∧
        (∀ e ∈ d.elements, e.optional = false → (ms.get? e.name).isSome) ∧
        ∀ k t w, (Table.ofList (d.properties fs)).get? k = some t → ms.get? k = some w →
          R t w) ∨
        d.nullable = true ∧ v = .null := by
  have hview : Allows defs R (d.shape us fs) v ↔
      (OfType "object" v ∨ d.nullable = true ∧ v = .null) ∧
        (∀ ms, v = .object ms → ∀ k t w, (Table.ofList (d.properties fs)).get? k = some t →
          ms.get? k = some w → R t w) ∧
        (d.required ≠ [] → ∀ ms, v = .object ms → ∀ k ∈ d.required, (ms.get? k).isSome) := by
    simp [allows_iff, Descriptor.get?_shape_record us fs hk, typeAllows_keywordValue,
      JsonType.name, Json.ofEntries, Json.strings]
  have hrequired : ∀ ms : Object, (∀ k ∈ d.required, (ms.get? k).isSome) ↔
      ∀ e ∈ d.elements, e.optional = false → (ms.get? e.name).isSome := by
    intro ms
    simp only [Descriptor.required, List.forall_mem_map, List.mem_filter, Bool.not_eq_true',
      and_imp]
  rw [hview, ofType_object]
  constructor
  · rintro ⟨hv, hps, hreq⟩
    rcases hv with ⟨ms, rfl⟩ | hnull
    · refine Or.inl ⟨ms, rfl, (hrequired ms).mp fun k hk => ?_, hps ms rfl⟩
      exact hreq (List.ne_nil_of_mem hk) ms rfl k hk
    · exact Or.inr hnull
  · rintro (⟨ms, rfl, hreq, hps⟩ | ⟨hd, rfl⟩)
    · refine ⟨Or.inl ⟨ms, rfl⟩, fun ms' hms => ?_, fun _ ms' hms => ?_⟩
      · obtain rfl := Json.object.inj hms
        exact hps
      · obtain rfl := Json.object.inj hms
        exact (hrequired ms).mpr hreq
    · exact ⟨Or.inr ⟨hd, rfl⟩, fun _ hms => (nomatch hms), fun _ _ hms => (nomatch hms)⟩

/-- Under different names every element has its own fragment among the properties. -/
theorem allows_record (hk : d.kind = .record) (hlen : d.elements.length = fs.length)
    (hn : d.elementNames.Nodup) :
    Allows defs R (d.shape us fs) v ↔
      (∃ ms, v = .object ms ∧
        (∀ e ∈ d.elements, e.optional = false → (ms.get? e.name).isSome) ∧
        ∀ p ∈ d.elements.zip fs, ∀ w, ms.get? p.1.name = some w → R (.object p.2) w) ∨
        d.nullable = true ∧ v = .null := by
  have hproperties : ∀ ms : Object, (∀ k t w, (Table.ofList (d.properties fs)).get? k = some t →
      ms.get? k = some w → R t w) ↔
        ∀ p ∈ d.elements.zip fs, ∀ w, ms.get? p.1.name = some w → R (.object p.2) w := by
    intro ms
    constructor
    · intro h p hp w hw
      exact h p.1.name _ w (Descriptor.get?_properties hlen hn hp) hw
    · intro h k t w ht hw
      obtain ⟨p, hp, heq⟩ := mem_zipWith.mp (Table.mem_of_get?_ofList ht)
      cases heq
      exact h p hp w hw
  rw [allows_record_members hk]
  simp only [hproperties]

theorem allows_polymorphic {h : Hierarchy} (hk : d.kind = .polymorphic h) :
    Allows defs R (d.shape us fs) v ↔
      (∃ p ∈ us.zip fs, R (.object (taggedVariant p.1.descriptor.variantName p.2)) v) ∨
        d.nullable = true ∧ R (.object nullFragment) v := by
  have hview : Allows defs R (d.shape us fs) v ↔
      ∃ j ∈ ((if d.nullable then [nullFragment] else []) ++ Descriptor.variants us fs).map
        Json.object, R j v := by
    simp [allows_iff, Descriptor.get?_shape_polymorphic us fs hk]
  rw [hview]
  constructor
  · rintro ⟨j, hj, hv⟩
    obtain ⟨s, hs, rfl⟩ := List.mem_map.mp hj
    rcases List.mem_append.mp hs with hs | hs
    · split at hs
      · next hd => exact Or.inr ⟨hd, List.mem_singleton.mp hs ▸ hv⟩
      · cases hs
    · obtain ⟨p, hp, rfl⟩ := mem_zipWith.mp hs
      exact Or.inl ⟨p, hp, hv⟩
  · rintro (⟨p, hp, hv⟩ | ⟨hd, hv⟩)
    · refine ⟨_, List.mem_map_of_mem (List.mem_append_right _ ?_), hv⟩
      exact mem_zipWith.mpr ⟨p, hp, rfl⟩
    · refine ⟨_, List.mem_map_of_mem (List.mem_append_left _ ?_), hv⟩
      rw [if_pos hd]
      exact List.mem_singleton_self _

end

end TypeSchema
