/-
  The definitions of a document, and the pointers to them.

  While a build goes on, every pointer is to a key of the registry, pending or ready
  (`Builds.resolves`), and every key that the build added is ready when it ends and is reached
  from the fragments it made (`Builds.reached`). At the end of a call no key is pending any more,
  so the document has no dangling pointer and no definition that nothing leads to.
-/
import TypeSchema.Proofs.Position

namespace TypeSchema

variable {N : Type} {g : Graph N}

/-- The value of `$ref` that leads to the definition under `key`. -/
def refTo (key : String) : Json := .string ("#/$defs/" ++ key)

/-- The definition under `key` in a document. -/
def definition? (doc : Object) (key : String) : Option Object :=
  match doc.get? "$defs" with
  | some (.object defs) =>
    match defs.get? key with
    | some (.object t) => some t
    | _ => none
  | _ => none

/-- One step from a schema to one right inside it, definitions included. -/
inductive Position (s : Object) : Object → Prop
  | subschema {t : Object} : Subschema s t → Position s t
  | definition {defs : Object} {key : String} {t : Object} :
    s.get? "$defs" = some (.object defs) → defs.get? key = some (.object t) → Position s t

/-- A pointer to `key` stands in the fragment. -/
def Points (f : Object) (key : String) : Prop :=
  ∃ s, Within f s ∧ s.get? "$ref" = some (refTo key)

/-- The keys that pointers lead to from the fragments `fs`, directly or through definitions. -/
inductive Reached (defs : String → Option Object) (fs : List Object) : String → Prop
  | start {f : Object} {key : String} : f ∈ fs → Points f key → Reached defs fs key
  | next {key key' : String} {t : Object} : Reached defs fs key → defs key = some t →
    Points t key' → Reached defs fs key'

/-- No pointer of the document dangles, and no definition is there for nothing. -/
structure WellReferenced (doc : Object) : Prop where
  /-- Every `$ref` at a schema position leads to a definition of the document. -/
  resolved : ∀ s j, Relation.ReflTransGen Position doc s → s.get? "$ref" = some j →
    ∃ key t, j = refTo key ∧ definition? doc key = some t
  /-- The definitions are an object, and each is reached from the rest of the document. -/
  reached : ∀ j, doc.get? "$defs" = some j → ∃ defs : Object, j = .object defs ∧
    ∀ key ∈ defs.keys, Reached (definition? doc) [doc.erase "$defs"] key
  /-- Only the document itself has definitions. -/
  rootOnly : ∀ s, Relation.TransGen Position doc s → s.get? "$defs" = none
  /-- There are none exactly if the rest of the document has no `$ref`. -/
  absent : doc.get? "$defs" = none ↔
    ∀ s, Within (doc.erase "$defs") s → s.get? "$ref" = none

/-! ## Pointers of a fragment -/

/-- Every pointer of the fragment is to a key of the registry, and nothing is defined inside. -/
def Resolves (r : Registry) (f : Object) : Prop :=
  ∀ s, Within f s → s.get? "$defs" = none ∧
    ∀ j, s.get? "$ref" = some j → ∃ key, j = refTo key ∧ r.contains key = true

theorem Resolves.mono {r r' : Registry} {f : Object} (h : Resolves r f)
    (hr : ∀ key, r.contains key = true → r'.contains key = true) : Resolves r' f := by
  intro s hs
  refine ⟨(h s hs).1, fun j hj => ?_⟩
  obtain ⟨key, hkey, hc⟩ := (h s hs).2 j hj
  exact ⟨key, hkey, hr key hc⟩

theorem not_subschema_pointer (key : String) (t : Object) : ¬ Subschema (pointer key) t := by
  intro h
  cases h <;> simp_all [get?_pointer]

theorem subschema_reference {key : String} {nullable : Bool} {t : Object}
    (h : Subschema (reference key nullable) t) : t = nullFragment ∨ t = pointer key := by
  cases nullable with
  | false => exact absurd h (not_subschema_pointer key t)
  | true =>
    cases h with
    | anyOf hs hmem =>
      rw [get?_reference, if_pos rfl, if_pos rfl] at hs
      cases hs
      simpa using hmem
    | _ => simp_all [get?_reference]

theorem within_pointer {key : String} {s : Object} (h : Within (pointer key) s) :
    s = pointer key := by
  rcases h.cases with h | ⟨t, ht, _⟩
  · exact h
  · exact absurd ht (not_subschema_pointer key t)

theorem within_reference {key : String} {nullable : Bool} {s : Object}
    (h : Within (reference key nullable) s) : s = pointer key ∨ Plain s := by
  cases nullable with
  | false => exact Or.inl (within_pointer h)
  | true =>
    rcases h.cases with rfl | ⟨t, ht, h⟩
    · right
      constructor <;> simp [get?_reference]
    · rcases subschema_reference ht with rfl | rfl
      · exact Or.inr (within_nullFragment h)
      · exact Or.inl (within_pointer h)

theorem points_reference (key : String) (nullable : Bool) :
    Points (reference key nullable) key := by
  have hpointer : Points (pointer key) key := ⟨pointer key, .refl, by rw [get?_pointer]; rfl⟩
  cases nullable with
  | false => exact hpointer
  | true =>
    obtain ⟨s, hs, href⟩ := hpointer
    refine ⟨s, .head (.anyOf (get?_reference key true "anyOf") ?_) hs, href⟩
    exact List.mem_cons_of_mem _ List.mem_cons_self

/-- Fragments of one shape have the same positions inside. -/
theorem Within.of_sameShape {s s' t : Object} (h : SameShape s s') (ht : Within s t) :
    t = s ∨ Within s' t := by
  rcases ht.cases with ht | ⟨t', hs, ht⟩
  · exact Or.inl ht
  · exact Or.inr (.head (hs.of_sameShape h) ht)

theorem Points.of_sameShape {s s' : Object} {key : String} (h : SameShape s s')
    (hp : Points s key) : Points s' key := by
  obtain ⟨t, ht, href⟩ := hp
  rcases ht.of_sameShape h with rfl | ht
  · exact ⟨s', .refl, (h _ (by decide)).symm.trans href⟩
  · exact ⟨t, ht, href⟩

theorem Points.of_within {f t : Object} {key : String} (h : Within t f) (hp : Points f key) :
    Points t key := by
  obtain ⟨s, hs, href⟩ := hp
  exact ⟨s, Relation.ReflTransGen.trans h hs, href⟩

theorem Resolves.of_sameShape {r : Registry} {s s' : Object} (h : SameShape s s')
    (hs : Resolves r s') : Resolves r s := by
  intro t ht
  rcases ht.of_sameShape h with rfl | ht
  · have hroot := hs s' .refl
    rw [h _ (by decide), h _ (by decide)]
    exact hroot
  · exact hs t ht

variable {r r' : Registry} {u : Use N} {us : List (Use N)} {fs : List Object} {f : Object}

theorem resolves_pointer {n : Nat} {key : String} (h : u.pointer g n key = .ok f)
    (hc : r.contains key = true) : Resolves r f := by
  refine Resolves.of_sameShape (SameShape.pointer h) fun s hs => ?_
  rcases within_reference hs with rfl | hplain
  · refine ⟨by rw [get?_pointer]; rfl, fun j hj => ⟨key, ?_, hc⟩⟩
    rw [get?_pointer, if_pos rfl] at hj
    exact (Option.some.inj hj).symm
  · refine ⟨hplain.defs, fun j hj => ?_⟩
    rw [hplain.ref] at hj
    cases hj

theorem points_pointer {n : Nat} {key : String} (h : u.pointer g n key = .ok f) :
    Points f key := (points_reference key _).of_sameShape (SameShape.pointer h).symm

/-- A finished fragment has the pointers of its parts. -/
theorem resolves_finish (hp : Parts g u us) (hlen : us.length = fs.length)
    (hf : u.finish us fs = .ok f) (hfs : ∀ f' ∈ fs, Resolves r f') : Resolves r f := by
  intro s hs
  rcases Use.within_finish hp hlen hf hs with hplain | ⟨f', hf', hs⟩
  · refine ⟨hplain.defs, fun j hj => ?_⟩
    rw [hplain.ref] at hj
    cases hj
  · exact hfs f' hf' s hs

/-! ## Pointers and keys of a build -/

theorem Reached.mono {defs defs' : String → Option Object} {fs gs : List Object} {key : String}
    (h : Reached defs fs key)
    (hfs : ∀ f ∈ fs, ∀ key, Points f key → Reached defs' gs key)
    (hdefs : ∀ key t, defs key = some t → defs' key = some t) : Reached defs' gs key := by
  induction h with
  | start hf hp => exact hfs _ hf _ hp
  | next _ ht hp ih => exact ih.next (hdefs _ _ ht) hp

theorem Reached.of_subset {defs defs' : String → Option Object} {fs gs : List Object}
    {key : String} (h : Reached defs fs key) (hfs : fs ⊆ gs)
    (hdefs : ∀ key t, defs key = some t → defs' key = some t) : Reached defs' gs key :=
  h.mono (fun _ hf _ hp => .start (hfs hf) hp) hdefs

namespace Builds

/-- Every pointer of a built fragment is to a key of the registry. -/
theorem resolves (h : Builds g r us fs r') : ∀ f ∈ fs, Resolves r' f := by
  induction h with
  | nil r => exact fun f hf => absurd hf List.not_mem_nil
  | inPlace n hk hp hus hf hvs ihus ihvs =>
    have hresolves := resolves_finish (Parts.of_parts hp) hus.length_eq hf ihus
    exact List.forall_mem_cons.mpr
      ⟨hresolves.mono fun _ hc => hvs.contains_of_contains hc, ihvs⟩
  | known n hk hc hf hvs ihvs =>
    refine List.forall_mem_cons.mpr ⟨?_, ihvs⟩
    exact (resolves_pointer hf hc).mono fun _ hc => hvs.contains_of_contains hc
  | defined n m hk hc hp hus ht hf hvs ihus ihvs =>
    refine List.forall_mem_cons.mpr ⟨?_, ihvs⟩
    exact resolves_pointer hf (hvs.contains_of_contains (Registry.contains_insert_self _ _ _))

/-- What a build does to a key that it adds: the key gets a definition without dangling pointers,
and the built fragments lead to it. -/
theorem reached (h : Builds g r us fs r') (hn : ∀ u ∈ us, DistinctNames g u.descriptor)
    {key : String} (hc : r'.contains key = true) : r.contains key = true ∨
      ∃ t, r'.get? key = some t ∧ Resolves r' t ∧ Reached r'.get? fs key := by
  induction h with
  | nil r => exact Or.inl hc
  | @inPlace u us vs fs gs f r r₁ r₂ n hk hp hus hf hvs ihus ihvs =>
    obtain ⟨hu, hnvs⟩ := List.forall_mem_cons.mp hn
    have hparts := Parts.of_parts hp
    rcases ihvs hnvs hc with hc | ⟨t, ht, hres, hreach⟩
    · rcases ihus (fun v hv => hu.of_parts hparts hv) hc with hc | ⟨t, ht, hres, hreach⟩
      · exact Or.inl hc
      · refine Or.inr ⟨t, hvs.get?_mono ht, ?_, ?_⟩
        · exact hres.mono fun _ hc => hvs.contains_of_contains hc
        · refine hreach.mono (fun f' hf' _ hp => ?_) fun _ _ ht => hvs.get?_mono ht
          have hwithin := Use.finish_within hparts hus.length_eq (hu _ .refl) hf hf'
          exact .start List.mem_cons_self (hp.of_within hwithin)
    · exact Or.inr ⟨t, ht, hres,
        hreach.of_subset (List.subset_cons_self _ _) fun _ _ ht => ht⟩
  | known n hk hck hf hvs ihvs =>
    rcases ihvs (List.forall_mem_cons.mp hn).2 hc with hc | ⟨t, ht, hres, hreach⟩
    · exact Or.inl hc
    · exact Or.inr ⟨t, ht, hres,
        hreach.of_subset (List.subset_cons_self _ _) fun _ _ ht => ht⟩
  | @defined u us vs fs gs f t new r r₁ r₂ n m hk hnew hp hus ht hf hvs ihus ihvs =>
    obtain ⟨hu, hnvs⟩ := List.forall_mem_cons.mp hn
    rcases ihvs hnvs hc with hc | ⟨t', ht', hres, hreach⟩
    · have hparts := Parts.of_parts hp
      have hmono : ∀ k, r₁.contains k = true → r₂.contains k = true := fun k hk =>
        hvs.contains_of_contains (Registry.contains_insert_of_contains _ _ hk)
      have hnewt : r₂.get? new = some t :=
        hvs.get?_mono (by rw [Registry.get?_insert_ready, if_pos rfl])
      have hstart : Reached r₂.get? (f :: gs) new :=
        .start List.mem_cons_self (points_pointer hf)
      by_cases hkey : new = key
      · subst hkey
        have hresolves := resolves_finish hparts hus.length_eq ht hus.resolves
        exact Or.inr ⟨t, hnewt, hresolves.mono hmono, hstart⟩
      · rw [Registry.contains_insert, decide_eq_false hkey, Bool.false_or] at hc
        rcases ihus (fun v hv => hu.of_definition.of_parts hparts hv) hc with
          hc' | ⟨t', ht', hres, hreach⟩
        · rw [Registry.contains_insert, decide_eq_false hkey, Bool.false_or] at hc'
          exact Or.inl hc'
        · refine Or.inr ⟨t', hvs.get?_mono (hus.get?_of_pending ht'), hres.mono hmono, ?_⟩
          -- what is reached from the parts of the definition is reached through the new key
          refine hreach.mono (fun f' hf' _ hp => ?_)
            fun _ _ ht => hvs.get?_mono (hus.get?_of_pending ht)
          have hwithin :=
            Use.finish_within hparts hus.length_eq (hu.of_definition _ .refl) ht hf'
          exact hstart.next hnewt (hp.of_within hwithin)
    · exact Or.inr ⟨t', ht', hres,
        hreach.of_subset (List.subset_cons_self _ _) fun _ _ ht => ht⟩

end Builds

/-! ## Documents -/

/-- Inside a fragment without definitions every position is a schema's own. -/
theorem within_of_position {s t : Object} (h : Relation.ReflTransGen Position s t)
    (hs : Resolves r s) : Within s t := by
  induction h with
  | refl => exact .refl
  | tail _ hstep ih =>
    cases hstep with
    | subschema hsub => exact ih.tail hsub
    | definition hdefs _ =>
      rw [(hs _ ih).1] at hdefs
      cases hdefs

/-- A registry with keys puts its definitions into the document, whatever stood there. -/
theorem definition?_attachTo_of_nonempty (hr : r.entries.Ordered) (he : r.isEmpty = false)
    (key : String) : definition? (r.attachTo f) key = r.get? key := by
  unfold definition?
  rw [Registry.get?_attachTo, if_pos ⟨rfl, he⟩]
  have hget := Registry.get?_definitions hr key
  cases hk : r.get? key with
  | none => simp only [hget, hk, Option.map_none]
  | some t => simp only [hget, hk, Option.map_some]

/-- The definitions of a document are those of the registry. -/
theorem definition?_attachTo (hr : r.entries.Ordered) (hf : f.get? "$defs" = none)
    (key : String) : definition? (r.attachTo f) key = r.get? key := by
  cases he : r.isEmpty with
  | false => exact definition?_attachTo_of_nonempty hr he key
  | true =>
    unfold definition?
    rw [Registry.get?_attachTo, if_neg (by simp [he]), hf, Registry.get?_of_isEmpty he]

/-- What holds of the root fragment and the registry when a call ends. -/
structure Settled (r : Registry) (f : Object) : Prop where
  ordered : r.entries.Ordered
  resolves : Resolves r f
  ready : ∀ key, r.contains key = true →
    ∃ t, r.get? key = some t ∧ Resolves r t ∧ Reached r.get? [f] key

theorem Settled.of_builds {u : Use N} (h : Builds g {} [u] [f] r)
    (hn : DistinctNames g u.descriptor) : Settled r f where
  ordered := h.ordered Table.ordered_empty
  resolves := h.resolves f (List.mem_singleton_self f)
  ready := by
    intro key hc
    rcases h.reached (by simpa using hn) hc with hc | hready
    · cases hc
    · exact hready

namespace Settled

theorem root_get?_defs (h : Settled r f) : f.get? "$defs" = none := (h.resolves f .refl).1

theorem definition?_eq (h : Settled r f) (key : String) :
    definition? (r.attachTo f) key = r.get? key :=
  definition?_attachTo h.ordered h.root_get?_defs key

/-- Without its definitions a document has the shape of its fragment. -/
theorem sameShape_erase (h : Settled r f) : SameShape ((r.attachTo f).erase "$defs") f := by
  intro n _
  rw [Table.get?_erase]
  split
  · next hn => rw [← hn, h.root_get?_defs]
  · next hn =>
    rw [Registry.get?_attachTo, if_neg]
    rintro ⟨hdefs, _⟩
    exact hn hdefs

/-- What stands in a document stands in its fragment or in a definition, if it is not the
document itself. -/
theorem exists_within (h : Settled r f) {s : Object}
    (hs : Relation.TransGen Position (r.attachTo f) s) : ∃ t, Resolves r t ∧ Within t s := by
  obtain ⟨t, hfirst, hs⟩ := Relation.TransGen.head'_iff.mp hs
  cases hfirst with
  | subschema hsub =>
    have hsub : Subschema f t := hsub.of_get?_eq fun n _ hn => by
      rw [Registry.get?_attachTo, if_neg]
      rintro ⟨hdefs, _⟩
      exact hn hdefs.symm
    have ht : Resolves r t := fun s hs => h.resolves s (.head hsub hs)
    exact ⟨t, ht, within_of_position hs ht⟩
  | @definition defs key t hd ht =>
    have hkey : definition? (r.attachTo f) key = some t := by
      unfold definition?
      rw [hd]
      simp only [ht]
    rw [h.definition?_eq] at hkey
    obtain ⟨t', ht', hres, _⟩ := h.ready key (Registry.contains_of_get? hkey)
    rw [hkey] at ht'
    cases ht'
    exact ⟨t, hres, within_of_position hs hres⟩

theorem definition?_of_ref (h : Settled r f) {s : Object} {j : Json} {t : Object}
    (ht : Resolves r t) (hs : Within t s) (hj : s.get? "$ref" = some j) :
    ∃ key t, j = refTo key ∧ definition? (r.attachTo f) key = some t := by
  obtain ⟨key, rfl, hc⟩ := (ht s hs).2 j hj
  obtain ⟨t', ht', _⟩ := h.ready key hc
  exact ⟨key, t', rfl, (h.definition?_eq key).trans ht'⟩

theorem reached (h : Settled r f) {key : String} (hc : r.contains key = true) :
    Reached (definition? (r.attachTo f)) [(r.attachTo f).erase "$defs"] key := by
  obtain ⟨t, _, _, hreach⟩ := h.ready key hc
  refine hreach.mono (fun f' hf' key' hp => ?_) fun key t ht => (h.definition?_eq key).trans ht
  rw [List.mem_singleton.mp hf'] at hp
  exact .start (List.mem_singleton_self _) (hp.of_sameShape h.sameShape_erase.symm)

/-- A document has definitions exactly if its registry has keys. -/
theorem get?_defs (h : Settled r f) : (r.attachTo f).get? "$defs" =
    if r.isEmpty then none else some (.object r.definitions) := by
  rw [Registry.get?_attachTo]
  by_cases he : r.isEmpty = true
  · rw [if_neg (by simp [he]), if_pos he, h.root_get?_defs]
  · rw [if_pos ⟨rfl, by simpa using he⟩, if_neg he]

/-- Whatever is reached, some pointer stands in a fragment that it is reached from. -/
theorem exists_points {defs : String → Option Object} {fs : List Object} {key : String}
    (h : Reached defs fs key) : ∃ f ∈ fs, ∃ key, Points f key := by
  induction h with
  | start hf hp => exact ⟨_, hf, _, hp⟩
  | next _ _ _ ih => exact ih

theorem isEmpty_iff (h : Settled r f) : r.isEmpty = true ↔
    ∀ s, Within ((r.attachTo f).erase "$defs") s → s.get? "$ref" = none := by
  constructor
  · intro he s hs
    cases hj : s.get? "$ref" with
    | none => rfl
    | some j =>
      obtain ⟨key, _, hc⟩ := (h.resolves.of_sameShape h.sameShape_erase s hs).2 j hj
      rw [Registry.contains_of_isEmpty he] at hc
      cases hc
  · intro hs
    by_contra he
    obtain ⟨key, hc⟩ := Registry.exists_contains_of_isEmpty (by simpa using he)
    obtain ⟨f', hf', key', s, hw, hs'⟩ := exists_points (h.reached hc)
    rw [List.mem_singleton.mp hf'] at hw
    rw [hs s hw] at hs'
    cases hs'

end Settled

/-- Every `$ref` of a document leads to a definition in it, every definition is led to, and only
the document itself has definitions. -/
theorem wellReferenced_of_schemaOf {n : Nat} {d : Descriptor N} {seed : Annotations}
    {doc : Object} (hn : DistinctNames g d)
    (h : Generator.schemaOf {} g n d seed = .ok doc) : WellReferenced doc := by
  obtain ⟨f, r, hb, rfl⟩ := builds_of_schemaOf h
  have hs : Settled r f := .of_builds hb hn
  refine ⟨?_, ?_, ?_, ?_⟩
  · intro s j hpos hj
    rcases Relation.reflTransGen_iff_eq_or_transGen.mp hpos with rfl | hpos
    · rw [Registry.get?_attachTo, if_neg (by simp)] at hj
      exact hs.definition?_of_ref hs.resolves .refl hj
    · obtain ⟨t, ht, hw⟩ := hs.exists_within hpos
      exact hs.definition?_of_ref ht hw hj
  · intro j hj
    rw [hs.get?_defs] at hj
    split at hj
    · cases hj
    · cases hj
      refine ⟨r.definitions, rfl, fun key hkey => hs.reached ?_⟩
      exact Registry.contains_of_mem_keys hs.ordered hkey
  · intro s hpos
    obtain ⟨t, ht, hw⟩ := hs.exists_within hpos
    exact (ht s hw).1
  · rw [hs.get?_defs, ← hs.isEmpty_iff]
    split <;> simp_all

theorem wellReferenced_link :
    ∃ doc, Generator.schemaOf {} linkGraph 3 link [] = .ok doc ∧ WellReferenced doc := by
  obtain ⟨doc, hdoc⟩ : ∃ doc, Generator.schemaOf {} linkGraph 3 link [] = .ok doc := ⟨_, rfl⟩
  exact ⟨doc, hdoc, wellReferenced_of_schemaOf distinctNames_link hdoc⟩

end TypeSchema
