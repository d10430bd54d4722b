/-
  Documents do not depend on the order of elements.

  What a call registers, and in which order, follows the elements of the records it comes to. In
  the end it has a definition for each key that a use within reach asks for, and no other
  (`Visits.contains_iff`), and what stands under a key is the same for every order
  (`similar_definition`). A call on a graph with its records in another order succeeds as well:
  the fragments of its uses are there (`Fragments.reordered`), and whatever has fragments can be
  built, from any registry (`exists_builds`).
-/
import TypeSchema.Proofs.Growth
import TypeSchema.Proofs.Reordering
import TypeSchema.Proofs.Termination

namespace TypeSchema

variable {N : Type}

/-! ## Fragments are determined -/

section

variable {g : Graph N} {u : Use N} {us : List (Use N)} {fs fs' : List Object} {f f' : Object}

theorem Fragments.unique (h : Fragments g us fs) (h' : Fragments g us fs') : fs = fs' := by
  induction h generalizing fs' with
  | nil =>
    cases h'
    rfl
  | inPlace n hk hp _ hf _ ihus ihvs =>
    cases h' with
    | inPlace m _ hp' hus' hf' hvs' =>
      obtain rfl := parts_unique hp hp'
      obtain rfl := ihus hus'
      rw [ihvs hvs', Except.ok.inj (hf.symm.trans hf')]
    | pointer m hk' _ _ => rw [hk] at hk'; cases hk'
  | pointer n hk hf _ ihvs =>
    cases h' with
    | inPlace m hk' _ _ _ _ => rw [hk] at hk'; cases hk'
    | pointer m hk' hf' hvs' =>
      obtain rfl := Option.some.inj (hk.symm.trans hk')
      have hn := pointer_mono (Nat.le_max_left n m) hf
      have hm := pointer_mono (Nat.le_max_right n m) hf'
      rw [ihvs hvs', Except.ok.inj (hn.symm.trans hm)]

theorem Whole.unique (h : Whole g u f) (h' : Whole g u f') : f = f' := by
  obtain ⟨n, us, fs, hp, hfs, hf⟩ := h
  obtain ⟨m, us', fs', hp', hfs', hf'⟩ := h'
  obtain rfl := parts_unique hp hp'
  obtain rfl := hfs.unique hfs'
  exact Except.ok.inj (hf.symm.trans hf')

end

/-! ## Building what has fragments -/

/-- Uses that have fragments can be built from any registry, if what they come to has definitions
and asks for finitely many keys. -/
theorem exists_builds {g : Graph N} {P : Use N → Prop} {K : Finset String}
    (hclosed : ∀ u v, P u → Steps g u v → P v)
    (hkeyed : ∀ u key, P u → u.key? = some key → key ∈ K ∧ ∃ t, Whole g u.definition t)
    {us : List (Use N)} {fs : List Object} (h : Fragments g us fs) (hus : ∀ u ∈ us, P u)
    (r : Registry) : ∃ r', Builds g r us fs r' := by
  -- within one number of missing keys the induction is on the fragments
  suffices hbound : ∀ m r us fs, (missing K r).card ≤ m → Fragments g us fs → (∀ u ∈ us, P u) →
      ∃ r', Builds g r us fs r' from hbound _ r us fs (Nat.le_refl _) h hus
  clear h hus r
  intro m
  induction m using Nat.strongRecOn with
  | ind m ihm =>
    intro r us fs hm h hus
    induction h generalizing r with
    | nil => exact ⟨r, .nil r⟩
    | @inPlace u us vs fs gs f n hk hp _ hf _ ihus ihvs =>
      obtain ⟨hu, hvs⟩ := List.forall_mem_cons.mp hus
      have hparts : ∀ v ∈ us, P v := fun v hv =>
        hclosed u v hu ⟨n, us, by rw [Use.content_of_unkeyed hk]; exact hp, hv⟩
      obtain ⟨r₁, hb⟩ := ihus r hm hparts
      have hm₁ := Nat.le_trans (missing_le K hb.kept.grows.contains) hm
      obtain ⟨r₂, hb'⟩ := ihvs r₁ hm₁ hvs
      exact ⟨r₂, .inPlace n hk hp hb hf hb'⟩
    | @pointer u vs gs f key n hk hf _ ihvs =>
      obtain ⟨hu, hvs⟩ := List.forall_mem_cons.mp hus
      cases hc : r.contains key with
      | true =>
        obtain ⟨r', hb⟩ := ihvs r hm hvs
        exact ⟨r', .known n hk hc hf hb⟩
      | false =>
        obtain ⟨hK, t, n', us, fs, hp, hfs, ht⟩ := hkeyed u key hu hk
        have hparts : ∀ v ∈ us, P v := fun v hv =>
          hclosed u v hu ⟨n', us, by rw [Use.content_of_keyed hk]; exact hp, hv⟩
        have hlt := missing_insert_lt hK hc .pending
        obtain ⟨r₁, hb⟩ := ihm _ (Nat.lt_of_lt_of_le hlt hm) _ us fs (Nat.le_refl _) hfs hparts
        have hgrows : r.Grows (r₁.insert key (.ready t)) :=
          (((Registry.kept_insert hc .pending).trans hb.kept).insert hc _).grows
        have hm₁ := Nat.le_trans (missing_le K hgrows.contains) hm
        obtain ⟨r₂, hb'⟩ := ihvs _ hm₁ hvs
        exact ⟨r₂, .defined n' n hk hc hp hb ht hf hb'⟩

/-! ## One call -/

namespace Visits

variable {g h : Graph N} {root root' u : Use N} {r : Registry} {S : List (Use N)} {key : String}

variable (hg : Reorders g h) (hroot : root.Reordered root') (hone : OneTypePerKey g root)

include hg hroot hone

/-- What is met in one order is visited in any other. -/
theorem exists_reordered (hS : Visits h {} r [root'] S) (hu : Meets g root u) :
    ∃ u' ∈ S, u.Reordered u' := by
  induction hu with
  | refl => exact ⟨root', hS.start List.mem_cons_self, hroot⟩
  | @tail u v hu hstep ih =>
    obtain ⟨u', hu', huu'⟩ := ih
    cases hk : u'.key? with
    | none =>
      obtain ⟨v', hstep', hvv'⟩ := hstep.reordered hg huu'
      exact ⟨v', hS.closed u' hu' hk v' hstep', hvv'⟩
    | some key =>
      -- the parts were met for the use that asked first, which is of the same type
      obtain ⟨w', _, hw', hwk, _, hsteps⟩ := hS.exists_definer hu' hk
      obtain ⟨w, hw, hww'⟩ := hw'.reordered hg.symm hroot.symm
      have hku : u.key? = some key := huu'.key?.trans hk
      have hkw : w.key? = some key := hww'.key?.symm.trans hwk
      have hcontent : u.content = w.content := by
        rw [Use.content_of_keyed hku, Use.content_of_keyed hkw]
        exact Use.definition_eq (hone u w key hu hw hku hkw)
      have hstepw : Steps g w v := by
        unfold Steps at hstep ⊢
        rw [← hcontent]
        exact hstep
      obtain ⟨v', hstep', hvv'⟩ := hstepw.reordered hg hww'.symm
      exact ⟨v', hsteps v' hstep', hvv'⟩

/-- Under the key of a use stands the definition of its type, with records in whatever order. -/
theorem exists_definition (hS : Visits h {} r [root'] S) (hu : Meets g root u)
    (hk : u.key? = some key) :
    ∃ t x, r.get? key = some t ∧ u.definition.Reordered x ∧ Whole h x t := by
  obtain ⟨u', hu', huu'⟩ := hS.exists_reordered hg hroot hone hu
  obtain ⟨w', _, hw', hwk, ⟨t, ht, hwhole⟩, _⟩ := hS.exists_definer hu' (huu'.key?.symm.trans hk)
  obtain ⟨w, hw, hww'⟩ := hw'.reordered hg.symm hroot.symm
  have hdefinition : u.definition = w.definition :=
    Use.definition_eq (hone u w key hu hw hk (hww'.key?.symm.trans hwk))
  refine ⟨t, w'.definition, ht, ?_, hwhole⟩
  rw [hdefinition]
  exact hww'.symm.definition

/-- The keys of a call are those that the uses within reach ask for. -/
theorem contains_iff (hS : Visits h {} r [root'] S) :
    r.contains key = true ↔ ∃ u, Meets g root u ∧ u.key? = some key := by
  constructor
  · intro hc
    rcases hS.ready key hc with hc | ⟨w', hw', _, hwk, _⟩
    · cases hc
    · obtain ⟨v, hv, hmeets⟩ := hS.met w' hw'
      rw [List.mem_singleton.mp hv] at hmeets
      obtain ⟨w, hw, hww'⟩ := hmeets.reordered hg.symm hroot.symm
      exact ⟨w, hw, hww'.key?.symm.trans hwk⟩
  · rintro ⟨u, hu, hk⟩
    obtain ⟨u', hu', huu'⟩ := hS.exists_reordered hg hroot hone hu
    exact hS.registered u' hu' key (huu'.key?.symm.trans hk)

end Visits

/-! ## Two calls -/

section

variable {g h h' : Graph N} {root root₁ root₂ : Use N} {r₁ r₂ : Registry} {f₁ f₂ : Object}

variable (hg : Reorders g h) (hg' : Reorders g h') (hroot₁ : root.Reordered root₁)
  (hroot₂ : root.Reordered root₂) (hn : DistinctNames g root.descriptor)

include hg hg' hroot₁ hroot₂ hn

theorem similar_root (hb₁ : Builds h {} [root₁] [f₁] r₁) (hb₂ : Builds h' {} [root₂] [f₂] r₂) :
    SimilarObject f₁ f₂ := by
  have hn₁ : DistinctNames h root₁.descriptor := hn.reordered hg hroot₁.descriptor
  obtain ⟨fs, hfs, hf⟩ := hb₁.fragments.reordered (hg.symm.trans hg')
    (List.forall_mem_singleton.mpr hn₁) (.cons (hroot₁.symm.trans hroot₂) .nil)
  obtain rfl := hfs.unique hb₂.fragments
  obtain _ | ⟨hf, _⟩ := hf
  exact hf

variable (hone : OneTypePerKey g root)

include hone

/-- Where a call succeeds, it succeeds for the elements of records in any other order. -/
theorem exists_builds_reordered (hb : Builds h {} [root₁] [f₁] r₁) :
    ∃ f₂ r₂, Builds h' {} [root₂] [f₂] r₂ := by
  obtain ⟨S, hS⟩ := exists_visits hb
  have hhh' : Reorders h h' := hg.symm.trans hg'
  have hn₁ : DistinctNames h root₁.descriptor := hn.reordered hg hroot₁.descriptor
  obtain ⟨fs, hfs, hf⟩ := hb.fragments.reordered hhh' (List.forall_mem_singleton.mpr hn₁)
    (.cons (hroot₁.symm.trans hroot₂) .nil)
  obtain _ | ⟨_, hnil⟩ := hf
  cases hnil
  have hkeyed : ∀ v key, Meets h' root₂ v → v.key? = some key →
      key ∈ (S.filterMap Use.key?).toFinset ∧ ∃ t, Whole h' v.definition t := by
    intro v key hv hk
    obtain ⟨u, hu, huv⟩ := hv.reordered hg'.symm hroot₂.symm
    have hku : u.key? = some key := huv.key?.symm.trans hk
    obtain ⟨u', hu', huu'⟩ := hS.exists_reordered hg hroot₁ hone hu
    obtain ⟨t, x, _, hx, hwhole⟩ := hS.exists_definition hg hroot₁ hone hu hku
    have hnx : DistinctNames h x.descriptor :=
      (hn.of_meets hu).of_definition.reordered hg hx.descriptor
    obtain ⟨t', hwhole', _⟩ := hwhole.reordered hhh' (hx.symm.trans huv.symm.definition) hnx
    refine ⟨List.mem_toFinset.mpr (List.mem_filterMap.mpr ⟨u', hu', ?_⟩), t', hwhole'⟩
    exact huu'.key?.symm.trans hku
  obtain ⟨r₂, hb'⟩ := exists_builds (P := Meets h' root₂)
    (fun u v hu hstep => hu.tail hstep) hkeyed hfs (List.forall_mem_singleton.mpr .refl) {}
  exact ⟨_, r₂, hb'⟩

variable (hb₁ : Builds h {} [root₁] [f₁] r₁) (hb₂ : Builds h' {} [root₂] [f₂] r₂)

include hb₁ hb₂

theorem similar_definition (key : String) :
    Option.Rel SimilarObject (r₁.get? key) (r₂.get? key) := by
  obtain ⟨S₁, hS₁⟩ := exists_visits hb₁
  obtain ⟨S₂, hS₂⟩ := exists_visits hb₂
  by_cases hkey : ∃ u, Meets g root u ∧ u.key? = some key
  · obtain ⟨u, hu, hk⟩ := hkey
    obtain ⟨t₁, x₁, ht₁, hx₁, hwhole₁⟩ := hS₁.exists_definition hg hroot₁ hone hu hk
    obtain ⟨t₂, x₂, ht₂, hx₂, hwhole₂⟩ := hS₂.exists_definition hg' hroot₂ hone hu hk
    have hnx : DistinctNames h x₁.descriptor :=
      (hn.of_meets hu).of_definition.reordered hg hx₁.descriptor
    obtain ⟨t, hwhole, hsimilar⟩ := hwhole₁.reordered (hg.symm.trans hg')
      (hx₁.symm.trans hx₂) hnx
    rw [ht₁, ht₂, ← hwhole.unique hwhole₂]
    exact .some hsimilar
  · have hnone : ∀ {r : Registry},
        (r.contains key = true ↔ ∃ u, Meets g root u ∧ u.key? = some key) →
        r.get? key = none := by
      intro r hiff
      cases ht : r.get? key with
      | none => rfl
      | some t => exact absurd (hiff.mp (Registry.contains_of_get? ht)) hkey
    rw [hnone (hS₁.contains_iff hg hroot₁ hone), hnone (hS₂.contains_iff hg' hroot₂ hone)]
    exact .none

theorem similar_attachTo : SimilarObject (r₁.attachTo f₁) (r₂.attachTo f₂) := by
  obtain ⟨S₁, hS₁⟩ := exists_visits hb₁
  obtain ⟨S₂, hS₂⟩ := exists_visits hb₂
  have hroot := similar_root hg hg' hroot₁ hroot₂ hn hb₁ hb₂
  have hempty : r₁.isEmpty = r₂.isEmpty := by
    have hof : ∀ {r r' : Registry}, (∀ key, r'.contains key = true → r.contains key = true) →
        r.isEmpty = true → r'.isEmpty = true := by
      intro r r' hsub hr
      by_contra hr'
      obtain ⟨key, hc⟩ := Registry.exists_contains_of_isEmpty (by simpa using hr')
      have hcontains := hsub key hc
      rw [Registry.contains_of_isEmpty hr] at hcontains
      cases hcontains
    have hiff : ∀ key, r₁.contains key = true ↔ r₂.contains key = true := fun key =>
      (hS₁.contains_iff hg hroot₁ hone).trans (hS₂.contains_iff hg' hroot₂ hone).symm
    exact Bool.eq_iff_iff.mpr ⟨hof fun key => (hiff key).mpr, hof fun key => (hiff key).mp⟩
  unfold Registry.attachTo
  rw [← hempty]
  split
  · exact hroot
  · have ho₁ : r₁.entries.Ordered := hb₁.ordered Table.ordered_empty
    have ho₂ : r₂.entries.Ordered := hb₂.ordered Table.ordered_empty
    have hdefinitions : SimilarObject r₁.definitions r₂.definitions := by
      refine .of_get? (Table.ordered_filterMap ho₁ _) (Table.ordered_filterMap ho₂ _) fun key => ?_
      have hrel := similar_definition hg hg' hroot₁ hroot₂ hn hone hb₁ hb₂ key
      rw [Registry.get?_definitions ho₁, Registry.get?_definitions ho₂]
      generalize r₁.get? key = t₁ at hrel ⊢
      generalize r₂.get? key = t₂ at hrel ⊢
      cases hrel with
      | none => exact .none
      | some hsimilar => exact .some hsimilar.similar
    exact hroot.insert "$defs" hdefinitions.similar

end

/-- If no key is asked for by two types, the elements of records may be put into any order: the
call succeeds if it did before, and the documents, definitions included, are equal up to the
order of the required names. -/
theorem schemaOf_reordered {g g' : Graph N} {d d' : Descriptor N} {seed : Annotations}
    (hg : Reorders g g') (hd : d.Reordered d') (hn : DistinctNames g d)
    (hone : OneTypePerKey g ⟨d, seed⟩) :
    ((∃ n doc, Generator.schemaOf {} g n d seed = .ok doc) ↔
      ∃ n doc, Generator.schemaOf {} g' n d' seed = .ok doc) ∧
    ∀ n n' doc doc', Generator.schemaOf {} g n d seed = .ok doc →
      Generator.schemaOf {} g' n' d' seed = .ok doc' → Similar (.object doc) (.object doc') := by
  have hself : (⟨d, seed⟩ : Use N).Reordered ⟨d, seed⟩ := .refl _
  have hother : (⟨d, seed⟩ : Use N).Reordered ⟨d', seed⟩ := ⟨hd, rfl⟩
  refine ⟨⟨?_, ?_⟩, ?_⟩
  · rintro ⟨n, doc, h⟩
    obtain ⟨f, r, hb, _⟩ := builds_of_schemaOf h
    obtain ⟨f', r', hb'⟩ := exists_builds_reordered (.refl g) hg hself hother hn hone hb
    obtain ⟨F, hF⟩ := schemaOf_of_builds hb'
    exact ⟨F, _, hF F (Nat.le_refl F)⟩
  · rintro ⟨n, doc, h⟩
    obtain ⟨f, r, hb, _⟩ := builds_of_schemaOf h
    obtain ⟨f', r', hb'⟩ := exists_builds_reordered hg (.refl g) hother hself hn hone hb
    obtain ⟨F, hF⟩ := schemaOf_of_builds hb'
    exact ⟨F, _, hF F (Nat.le_refl F)⟩
  · intro n n' doc doc' h h'
    obtain ⟨f, r, hb, rfl⟩ := builds_of_schemaOf h
    obtain ⟨f', r', hb', rfl⟩ := builds_of_schemaOf h'
    exact (similar_attachTo (.refl g) hg hself hother hn hone hb hb').similar

/-! ## A tree and its mirror image -/

def tree : Descriptor Unit where
  serialName := "Tree"
  kind := .record
  annotations := [.refBySerialName]
  elements := [{ name := "left", target := () }, { name := "right", target := () }]

def mirroredTree : Descriptor Unit := { tree with elements := tree.elements.reverse }

theorem tree_reordered : tree.Reordered mirroredTree :=
  ⟨rfl, rfl, rfl, rfl, (List.reverse_perm _).symm, fun hk => absurd rfl hk⟩

/-- The two trees require the same names, in two orders. -/
theorem schemaOf_mirroredTree : ∃ doc doc',
    Generator.schemaOf {} (fun _ => tree) 3 tree [] = .ok doc ∧
    Generator.schemaOf {} (fun _ => mirroredTree) 3 mirroredTree [] = .ok doc' ∧
    Similar (.object doc) (.object doc') := by
  obtain ⟨doc, hdoc⟩ : ∃ doc, Generator.schemaOf {} (fun _ => tree) 3 tree [] = .ok doc :=
    ⟨_, rfl⟩
  obtain ⟨doc', hdoc'⟩ : ∃ doc',
      Generator.schemaOf {} (fun _ => mirroredTree) 3 mirroredTree [] = .ok doc' := ⟨_, rfl⟩
  have hn : DistinctNames (fun _ => tree) tree := distinctNames_const (by decide)
  have hsimilar := (schemaOf_reordered (fun _ => tree_reordered) tree_reordered hn
    (oneTypePerKey_const rfl [])).2 3 3 doc doc' hdoc hdoc'
  exact ⟨doc, doc', hdoc, hdoc', hsimilar⟩

end TypeSchema
