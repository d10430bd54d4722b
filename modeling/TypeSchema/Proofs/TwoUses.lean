/-
  Two calls for one type that has a definition.

  The type asks for its definition itself, and the calls use it in different ways: under other
  annotations, and once as a nullable type. Both register the same definition under the same key
  and come to the same registry (`registry_eq_of_definition_eq`), since nothing of a use goes into
  it. What a use adds is written beside its own pointer, and only there (`documents_of_two_uses`).
-/
import TypeSchema.Proofs.Definitions
import TypeSchema.Proofs.Nullify
import TypeSchema.Proofs.PlainName
import TypeSchema.Proofs.Resolution
import TypeSchema.Proofs.UseSite

namespace TypeSchema

variable {N : Type} {g : Graph N}

/-! ## Keys -/

namespace Annotations

theorem refName?_append (as bs : Annotations) (serialName : String) (nullable : Bool) :
    (as ++ bs).refName? serialName nullable =
      (as.refName? serialName nullable).or (bs.refName? serialName nullable) :=
  List.findSome?_append

theorem refName?_eq_none {as : Annotations} (h : as.hasRef = false) (serialName : String)
    (nullable : Bool) : as.refName? serialName nullable = none := by
  apply Option.not_isSome_iff_eq_none.mp
  rw [isSome_refName?, h]
  exact Bool.false_ne_true

/-- The nullable form of a type asks for the key that the type asks for. -/
theorem refName?_mark (as : Annotations) (serialName : String) :
    as.refName? (Name.mark serialName) true = as.refName? serialName false := by
  have hpointwise : ∀ a : Annotation,
      a.refName? (Name.mark serialName) true = a.refName? serialName false := by
    intro a
    cases a with
    | refBySerialName =>
      show some ((Name.beforeMark? (Name.mark serialName)).getD _) = some serialName
      rw [Name.beforeMark?_mark, Option.getD_some]
    | _ => rfl
  show List.findSome? _ as = List.findSome? _ as
  rw [funext hpointwise]

end Annotations

/-- A type that asks for its definition itself gets the key that it asks for, if the place of use
asks for none. -/
theorem Use.key?_of_own {d : Descriptor N} {as : Annotations} (has : as.hasRef = false)
    (hd : d.annotations.hasRef = true) :
    Use.key? ⟨d, as⟩ = d.annotations.refName? d.serialName d.nullable := by
  show d.requestedKey? as = _
  unfold Descriptor.requestedKey?
  rw [hd, Bool.not_true, Bool.and_false, if_neg Bool.false_ne_true,
    Annotations.refName?_append, Annotations.refName?_eq_none has, Option.none_or]

theorem Use.key?_intoNullable_of_own {d : Descriptor N} (hnull : d.nullable = false)
    {as : Annotations} (has : as.hasRef = false) (hd : d.annotations.hasRef = true) :
    Use.key? ⟨d.intoNullable, as⟩ = d.annotations.refName? d.serialName false := by
  have hform : d.intoNullable =
      { d with nullable := true, serialName := Name.mark d.serialName } := by
    show (if d.nullable = true then _ else _) = _
    rw [hnull, if_neg Bool.false_ne_true]
  have hown := Use.key?_of_own
    (d := { d with nullable := true, serialName := Name.mark d.serialName }) has hd
  rw [hform]
  apply hown.trans
  exact d.annotations.refName?_mark d.serialName

/-! ## What a call registers -/

variable {u u' : Use N} {f f' : Object} {r r' : Registry} {key : String}

/-- A call for a use with a key registers the key, builds the definition and points to it. -/
theorem Builds.exists_definition (h : Builds g {} [u] [f] r) (hk : u.key? = some key) :
    ∃ n us fs t r₁, u.definition.parts g n = .ok us ∧
      Builds g (({} : Registry).insert key .pending) us fs r₁ ∧
      u.definition.finish us fs = .ok t ∧ r = r₁.insert key (.ready t) ∧
      ∃ m, u.pointer g m key = .ok f := by
  cases h with
  | inPlace n hk' _ _ _ _ => rw [hk] at hk'; cases hk'
  | known n _ hc _ _ => cases hc
  | @defined _ us _ fs _ _ t _ _ r₁ _ n m hk' _ hp hus ht hf hnil =>
    rw [hk] at hk'
    cases hk'
    cases hnil
    exact ⟨n, us, fs, t, r₁, hp, hus, ht, rfl, m, hf⟩

/-- The registry that a call leaves depends on the key and on the definition, and on nothing else
of the use. -/
theorem registry_eq_of_definition_eq (h : Builds g {} [u] [f] r) (h' : Builds g {} [u'] [f'] r')
    (hk : u.key? = some key) (hk' : u'.key? = some key) (hdef : u.definition = u'.definition) :
    r = r' := by
  obtain ⟨n, us, fs, t, r₁, hp, hus, ht, rfl, _⟩ := h.exists_definition hk
  obtain ⟨n', us', fs', t', r₁', hp', hus', ht', rfl, _⟩ := h'.exists_definition hk'
  rw [← hdef] at hp' ht'
  obtain rfl := parts_unique hp hp'
  obtain ⟨rfl, rfl⟩ := hus.unique hus'
  rw [Except.ok.inj (ht.symm.trans ht')]

/-! ## What stands beside the pointers -/

/-- The fragment that says where the definition under `key` is, and nothing else. -/
def pointerTo (key : String) : Object := Table.ofList [("$ref", refTo key)]

/-- The choice between `null` and what `s` accepts. -/
def nullOr (s : Object) : Object :=
  Table.ofList [("anyOf", .array [.object (Table.ofList [("type", .string "null")]), .object s])]

theorem reference_eq (key : String) (nullable : Bool) : reference key nullable =
    if nullable then nullOr (pointerTo key) else pointerTo key := by
  cases nullable <;> rfl

theorem InnerKind.unique {d : Descriptor N} {k k' : Kind} (h : InnerKind g d k)
    (h' : InnerKind g d k') : k = k' := by
  induction h with
  | base hk => exact (h'.eq_kind hk).symm
  | wrapper hk hes _ ih => exact ih (h'.of_wrapper hk hes)

/-- A document whose call has registered `key` is its fragment with all definitions. -/
theorem attachTo_eq_insert (hc : r.contains key = true) (f : Object) :
    r.attachTo f = f.insert "$defs" (.object r.definitions) := by
  have hne : ¬ r.isEmpty = true := by
    intro he
    rw [Registry.contains_of_isEmpty he] at hc
    cases hc
  show (if r.isEmpty = true then f else _) = _
  rw [if_neg hne]

/-- The document of a use with a key is the pointer to it, with the keywords of the use beside it
that suit the kind inside the type, and the definitions. -/
theorem document_of_keyed {k : Kind} (h : Builds g {} [u] [f] r) (hk : u.key? = some key)
    (hinner : InnerKind g u.descriptor k) :
    (∃ t, r.definitions.get? key = some (.object t)) ∧
      r.attachTo f = (u.inherited.write k.siteKeywords
        (reference key u.descriptor.nullable)).insert "$defs" (.object r.definitions) := by
  obtain ⟨_, _, _, t, r₁, _, _, _, rfl, _, hpointer⟩ := h.exists_definition hk
  obtain ⟨target, htarget, rfl⟩ := Use.pointer_eq_ok hpointer
  have hget : (r₁.insert key (.ready t)).get? key = some t := by
    rw [Registry.get?_insert_ready, if_pos rfl]
  refine ⟨⟨t, ?_⟩, ?_⟩
  · rw [Registry.get?_definitions (h.ordered Table.ordered_empty), hget]
    rfl
  · rw [attachTo_eq_insert (Registry.contains_of_get? hget),
      (innerKind_of_target htarget).unique hinner]

/-- Let a type, a wrapper or not, ask for its definition itself, and let two calls use it without
asking for another key, the first as it is and the second as a nullable type. The two documents
have the same definitions. Besides them the first is the pointer to the key and the second the
choice between `null` and that pointer, each with what its own seed writes: the documentation, and
the constraints that suit the kind inside all wrappers. -/
theorem documents_of_two_uses {d : Descriptor N} (hnull : d.nullable = false)
    (href : d.annotations.hasRef = true) {as bs : Annotations} (has : as.hasRef = false)
    (hbs : bs.hasRef = false) {n m : Nat} {doc doc' : Object}
    (h : Generator.schemaOf {} g n d as = .ok doc)
    (h' : Generator.schemaOf {} g m d.intoNullable bs = .ok doc') :
    ∃ key k defs, d.annotations.refName? d.serialName false = some key ∧ InnerKind g d k ∧
      (∃ t, Table.get? defs key = some (.object t)) ∧
      doc = (as.write k.siteKeywords (pointerTo key)).insert "$defs" (.object defs) ∧
      doc' = (bs.write k.siteKeywords (nullOr (pointerTo key))).insert "$defs" (.object defs) := by
  obtain ⟨f, r, hb, rfl⟩ := builds_of_schemaOf h
  obtain ⟨f', r', hb', rfl⟩ := builds_of_schemaOf h'
  obtain ⟨key, hkey⟩ : ∃ key, d.annotations.refName? d.serialName false = some key := by
    apply Option.isSome_iff_exists.mp
    rw [Annotations.isSome_refName?, href]
  have hk : Use.key? ⟨d, as⟩ = some key := by rw [Use.key?_of_own has href, hnull, hkey]
  have hk' : Use.key? ⟨d.intoNullable, bs⟩ = some key := by
    rw [Use.key?_intoNullable_of_own hnull hbs href, hkey]
  -- the two uses are of one type, which does not know how it is used
  have hdef : Use.definition ⟨d, as⟩ = Use.definition ⟨d.intoNullable, bs⟩ := by
    apply Use.definition_eq
    show d.nonNullable = d.intoNullable.nonNullable
    rw [Descriptor.nonNullable_intoNullable hnull, Descriptor.nonNullable, hnull,
      if_neg Bool.false_ne_true]
  obtain rfl := registry_eq_of_definition_eq hb hb' hk hk' hdef
  obtain ⟨_, _, _, _, _, _, _, _, _, _, hpointer⟩ := hb.exists_definition hk
  obtain ⟨target, htarget, _⟩ := Use.pointer_eq_ok hpointer
  have hinner : InnerKind g d target.kind := innerKind_of_target htarget
  obtain ⟨hdefined, hdoc⟩ := document_of_keyed hb hk hinner
  obtain ⟨_, hdoc'⟩ := document_of_keyed hb' hk' (hinner.of_outline d.outline_intoNullable.symm)
  rw [hnull, reference_eq, if_neg Bool.false_ne_true] at hdoc
  rw [d.nullable_intoNullable, reference_eq, if_pos rfl] at hdoc'
  exact ⟨key, target.kind, r.definitions, hkey, hinner, hdefined, hdoc, hdoc'⟩

/-! ## A wrapper that is used twice -/

/-- Numbers of ports, a wrapper around an integer under a definition of its own. -/
def port : Descriptor Unit where
  serialName := "Port"
  kind := .wrapper
  annotations := [.refBySerialName, .bound .maximum 65535]
  elements := [{ name := "number", target := () }]

def portGraph : Graph Unit := fun _ => .ofKind "u16" (.primitive .uShort)

theorem documents_of_port : ∃ doc doc' key k defs,
    Generator.schemaOf {} portGraph 4 port [.text .title "server"] = .ok doc ∧
    Generator.schemaOf {} portGraph 4 port.intoNullable [.bound .minimum 1024] = .ok doc' ∧
    port.annotations.refName? port.serialName false = some key ∧ InnerKind portGraph port k ∧
    (∃ t, Table.get? defs key = some (.object t)) ∧
    doc = (Annotations.write [.text .title "server"] k.siteKeywords
      (pointerTo key)).insert "$defs" (.object defs) ∧
    doc' = (Annotations.write [.bound .minimum 1024] k.siteKeywords
      (nullOr (pointerTo key))).insert "$defs" (.object defs) := by
  obtain ⟨doc, hdoc⟩ : ∃ doc,
      Generator.schemaOf {} portGraph 4 port [.text .title "server"] = .ok doc := ⟨_, rfl⟩
  obtain ⟨doc', hdoc'⟩ : ∃ doc',
      Generator.schemaOf {} portGraph 4 port.intoNullable [.bound .minimum 1024] = .ok doc' :=
    ⟨_, rfl⟩
  obtain ⟨key, k, defs, hdocs⟩ := documents_of_two_uses rfl rfl rfl rfl hdoc hdoc'
  exact ⟨doc, doc', key, k, defs, hdoc, hdoc', hdocs⟩

end TypeSchema
