/-
  Choices between variants.

  The tag of a variant bears on objects only. Among objects it makes the choice: one that a choice
  accepts has the name of exactly one variant in its discriminator, and no other alternative
  accepts it. Any other value is accepted as soon as one of the variants has it, by the fragment of
  the variant alone (`Chosen`). Records and maps have no such values, so a choice between them is
  a choice by name.
-/
import TypeSchema.Proofs.PlainName
import TypeSchema.Proofs.Resolution
import TypeSchema.Proofs.Validation

namespace TypeSchema

variable {N : Type} {g : Graph N}

/-- The alternative for a variant with its fragment. -/
def branch (discriminator : String) (p : Use N × Object) : Object :=
  taggedWith discriminator p.1.descriptor.variantName p.2

/-- What a choice is made between. -/
def alternatives (nullable : Bool) (discriminator : String) (ps : List (Use N × Object)) :
    List Object :=
  (if nullable then [nullFragment] else []) ++ ps.map (branch discriminator)

/-- What a value is to a choice between variants that accepts it. -/
inductive Chosen (g : Graph N) (lang : Dialect) (defs : String → Option Object) (nullable : Bool)
    (discriminator : String) (ps : List (Use N × Object)) : Json → Prop
  | null : nullable = true → Chosen g lang defs nullable discriminator ps .null
  /-- An object goes by the name of one variant, and only the alternative of that one has it. -/
  | tagged {ms : Object} (p : Use N × Object) : p ∈ ps →
    ms.get? discriminator = some (.string p.1.descriptor.serialName) →
    Validates lang defs (.object (branch discriminator p)) (.object ms) →
    (∀ q ∈ ps, ms.get? discriminator = some (.string q.1.descriptor.serialName) → q = p) →
    (∀ s ∈ alternatives nullable discriminator ps,
      Validates lang defs (.object s) (.object ms) → s = branch discriminator p) →
    Chosen g lang defs nullable discriminator ps (.object ms)
  /-- No object: one of the variants has it, and that is no record and no map, unless its pointer
  leads to the definition of another type. -/
  | untagged {v : Json} (p : Use N × Object) : (∀ ms, v ≠ .object ms) → p ∈ ps →
    Validates lang defs (.object p.2) v →
    (p.1.descriptor.kind = .record ∨ p.1.descriptor.kind = .map →
      ∃ key t, p.1.key? = some key ∧ defs key = some t ∧ ¬ Whole g p.1.definition t) →
    Chosen g lang defs nullable discriminator ps v

/-! ## Records and maps -/

section

variable {lang : Dialect} {defs : String → Option Object} {u : Use N} {t f : Object} {v : Json}

/-- What is built in place for a record or a map accepts objects only. -/
theorem Whole.exists_object (h : Whole g u t)
    (hk : u.descriptor.kind = .record ∨ u.descriptor.kind = .map)
    (hnull : u.descriptor.nullable = false) (hv : Validates lang defs (.object t) v) :
    ∃ ms, v = .object ms := by
  obtain ⟨n, us, fs, hp, hfs, ht⟩ := h
  have hw : u.descriptor.kind ≠ .wrapper := by
    rcases hk with hk | hk
    · rw [hk]; simp
    · rw [hk]; simp
  have hshape := ((validates_finish hw ht).mp hv).1
  rcases hk with hk | hk
  · rw [allows_record_members hk, hnull] at hshape
    obtain ⟨ms, hms, _⟩ | ⟨hfalse, _⟩ := hshape
    · exact ⟨ms, hms⟩
    · cases hfalse
  · obtain ⟨key, value, _, rfl⟩ := (Parts.of_parts hp).of_map hk
    obtain ⟨f, rfl⟩ := List.length_eq_one_iff.mp hfs.length_eq.symm
    rw [allows_map hk, hnull] at hshape
    obtain ⟨ms, hms, _⟩ | ⟨hfalse, _⟩ := hshape
    · exact ⟨ms, hms⟩
    · cases hfalse

/-- A record or a map that has something else than objects points to another definition. -/
theorem Fragments.exists_other_definition (h : Fragments g [u] [f])
    (hk : u.descriptor.kind = .record ∨ u.descriptor.kind = .map)
    (hnull : u.descriptor.nullable = false) (hv : Validates lang defs (.object f) v)
    (hobject : ∀ ms, v ≠ .object ms) :
    ∃ key t, u.key? = some key ∧ defs key = some t ∧ ¬ Whole g u.definition t := by
  cases h with
  | inPlace n _ hp hus hf _ =>
    obtain ⟨ms, hms⟩ := Whole.exists_object ⟨n, _, _, hp, hus, hf⟩ hk hnull hv
    exact absurd hms (hobject ms)
  | @pointer _ _ _ _ key n hkey hf _ =>
    obtain ⟨target, htarget, _⟩ := Use.pointer_eq_ok hf
    obtain ⟨hpointed, _⟩ := (validates_pointer htarget hf).mp hv
    rw [hnull] at hpointed
    obtain ⟨hfalse, _⟩ | ⟨t, ht, htv⟩ := hpointed
    · cases hfalse
    · refine ⟨key, t, hkey, ht, fun hwhole => ?_⟩
      have hkind : u.definition.descriptor.kind = u.descriptor.kind :=
        Descriptor.kind_eq_of_outline u.outline_definition
      obtain ⟨ms, hms⟩ := hwhole.exists_object (by rw [hkind]; exact hk)
        u.nullable_definition htv
      exact hobject ms hms

end

/-! ## Choices -/

section

variable {lang : Dialect} {defs : String → Option Object} {nullable : Bool}
  {discriminator : String} {us : List (Use N)} {fs : List Object} {v : Json}

/-- An alternative accepts what its variant has, and of objects only those that go by the name of
the variant. -/
theorem validates_branch {p : Use N × Object} (hnull : p.1.descriptor.nullable = false) :
    Validates lang defs (.object (branch discriminator p)) v ↔
      Validates lang defs (.object p.2) v ∧ ∀ ms, v = .object ms →
        ms.get? discriminator = some (.string p.1.descriptor.serialName) := by
  unfold branch
  rw [(Descriptor.PlainName.notNullable hnull).variantName]
  exact validates_taggedWith

theorem validates_choice {ss : List Object} :
    Validates lang defs (.object (Table.empty.insert "anyOf" (.array (ss.map .object)))) v ↔
      ∃ s ∈ ss, Validates lang defs (.object s) v := by
  have hget : ∀ n, (Table.empty.insert "anyOf" (.array (ss.map .object)) : Object).get? n =
      if "anyOf" = n then some (.array (ss.map .object)) else none := fun n =>
    Table.get?_insert _ _ _ _
  have hfree : SiteFree (Table.empty.insert "anyOf" (.array (ss.map .object))) := by
    intro k
    rw [hget, if_neg (name_ne_of_mem_shape (by decide)).symm]
  rw [hfree.validates_iff, allows_iff]
  simp [hget]

/-- Under different names an object goes by the name of one variant at most. -/
theorem eq_of_get?_discriminator (hlen : us.length = fs.length)
    (hnames : (us.map (·.descriptor.serialName)).Nodup) {p q : Use N × Object}
    (hp : p ∈ us.zip fs) (hq : q ∈ us.zip fs) {ms : Object}
    (hpms : ms.get? discriminator = some (.string p.1.descriptor.serialName))
    (hqms : ms.get? discriminator = some (.string q.1.descriptor.serialName)) : q = p := by
  have hnodup : ((us.zip fs).map fun p => p.1.descriptor.serialName).Nodup := by
    rw [← List.map_fst_zip (Nat.le_of_eq hlen), List.map_map] at hnames
    exact hnames
  rw [hpms] at hqms
  exact List.inj_on_of_nodup_map hnodup hq hp (Json.string.inj (Option.some.inj hqms)).symm

/-- The alternative that accepts an object is the one of the variant whose name the object has. -/
theorem eq_branch_of_validates (hlen : us.length = fs.length)
    (hnull : ∀ u ∈ us, u.descriptor.nullable = false)
    (hnames : (us.map (·.descriptor.serialName)).Nodup) {p : Use N × Object}
    (hp : p ∈ us.zip fs) {ms : Object}
    (hpms : ms.get? discriminator = some (.string p.1.descriptor.serialName)) {s : Object}
    (hs : s ∈ alternatives nullable discriminator (us.zip fs))
    (hv : Validates lang defs (.object s) (.object ms)) : s = branch discriminator p := by
  rcases List.mem_append.mp hs with hs | hs
  · split at hs
    · obtain rfl := List.mem_singleton.mp hs
      cases validates_nullFragment.mp hv
    · cases hs
  · obtain ⟨q, hq, rfl⟩ := List.mem_map.mp hs
    have hqnull := hnull q.1 (List.of_mem_zip hq).1
    have hqms := ((validates_branch hqnull).mp hv).2 ms rfl
    rw [eq_of_get?_discriminator hlen hnames hp hq hpms hqms]

theorem chosen_of_validates (h : Fragments g us fs)
    (hnull : ∀ u ∈ us, u.descriptor.nullable = false)
    (hnames : (us.map (·.descriptor.serialName)).Nodup) {s : Object}
    (hs : s ∈ alternatives nullable discriminator (us.zip fs))
    (hv : Validates lang defs (.object s) v) :
    Chosen g lang defs nullable discriminator (us.zip fs) v := by
  rcases List.mem_append.mp hs with hs | hs
  · split at hs
    · next hnullable =>
      obtain rfl := List.mem_singleton.mp hs
      rw [validates_nullFragment.mp hv]
      exact .null hnullable
    · cases hs
  · obtain ⟨p, hp, rfl⟩ := List.mem_map.mp hs
    have hpnull := hnull p.1 (List.of_mem_zip hp).1
    obtain ⟨hbody, htag⟩ := (validates_branch hpnull).mp hv
    by_cases hobject : ∃ ms, v = .object ms
    · obtain ⟨ms, rfl⟩ := hobject
      have hpms := htag ms rfl
      refine .tagged p hp hpms hv (fun q hq hqms => ?_) fun s hs hsv => ?_
      · exact eq_of_get?_discriminator h.length_eq hnames hp hq hpms hqms
      · exact eq_branch_of_validates h.length_eq hnull hnames hp hpms hs hsv
    · have hno : ∀ ms, v ≠ .object ms := fun ms hms => hobject ⟨ms, hms⟩
      refine .untagged p hno hp hbody fun hk => ?_
      exact (h.of_mem_zip hp).exists_other_definition hk hpnull hbody hno

end

/-! ## The writer -/

/-- Writing a choice builds the fragments of all variants and adds their alternatives. -/
theorem writeVariants_eq_ok {c : Context N} {discriminator : String} {draft draft' : Draft}
    (h : c.writeVariants discriminator draft = .ok () draft') :
    ∃ fs, c.descriptor.elements.mapM (fun e => c.build (e.child c.graph) []) draft.registry =
        .ok fs draft'.registry ∧
      draft'.fragment = draft.fragment.insert "anyOf" (.array (((
        if c.descriptor.nullable then [nullFragment] else []) ++ List.zipWith (fun e f =>
          taggedWith discriminator (e.child c.graph).variantName f) c.descriptor.elements fs).map
            .object)) := by
  by_cases hne : c.descriptor.elements.isEmpty = true
  · rw [writeVariants_empty c hne, throw_run] at h
    cases h
  · rw [writeVariants_eq c (by simpa using hne), bind_run, Write.build_run, variantFragments_eq,
      bind_run] at h
    cases hrun : c.descriptor.elements.mapM (fun e => c.build (e.child c.graph) [])
        draft.registry with
    | error e r =>
      rw [hrun] at h
      cases h
    | ok fs r =>
      rw [hrun] at h
      cases h
      exact ⟨fs, rfl, rfl⟩

/-- Variants that are not nullable and have different names: whatever their kinds and the
discriminator, an object that the choice accepts is one of them by name. -/
theorem chosen_of_writeVariants {n : Nat} {d : Descriptor N} {as : Annotations}
    {discriminator : String} {draft draft' : Draft}
    (h : (Generator.context {} g n d as).writeVariants discriminator draft = .ok () draft')
    (hnull : ∀ e ∈ d.elements, (e.child g).nullable = false)
    (hnames : (d.elements.map fun e => (e.child g).serialName).Nodup) :
    ∃ fs, Fragments g (d.elements.map (·.variant g)) fs ∧
      draft'.fragment = draft.fragment.insert "anyOf" (.array ((alternatives d.nullable
        discriminator ((d.elements.map (·.variant g)).zip fs)).map .object)) ∧
      ∀ lang defs v, Validates lang defs (.object draft'.fragment) v →
        Chosen g lang defs d.nullable discriminator
          ((d.elements.map (·.variant g)).zip fs) v := by
  obtain ⟨fs, hrun, hfragment⟩ := writeVariants_eq_ok h
  have hbuild : (d.elements.map (·.variant g)).mapM (Use.build g n) draft.registry =
      .ok fs draft'.registry := by
    rw [List.mapM_map]
    exact hrun
  have hfs := (Builds.of_mapM (fun _ _ _ _ hu => builds_of_build hu) hbuild).fragments
  have halternatives : draft'.fragment = draft.fragment.insert "anyOf"
      (.array ((alternatives d.nullable discriminator
        ((d.elements.map (·.variant g)).zip fs)).map .object)) := by
    rw [hfragment]
    unfold alternatives
    rw [List.zip_map_left, List.map_map, ← List.map_uncurry_zip_eq_zipWith]
    rfl
  refine ⟨fs, hfs, halternatives, fun lang defs v hv => ?_⟩
  obtain ⟨j, hj, hjv⟩ := (validates_object.mp hv).1.anyOf _ (by
    rw [halternatives, Table.get?_insert_self])
  obtain ⟨s, hs, rfl⟩ := List.mem_map.mp hj
  refine chosen_of_validates hfs (fun u hu => ?_) ?_ hs hjv
  · obtain ⟨e, he, rfl⟩ := List.mem_map.mp hu
    exact hnull e he
  · rw [List.map_map]
    exact hnames

/-! ## A marker among the variants -/

def stop : Descriptor Bool where
  serialName := "Stop"
  kind := .marker

def go : Descriptor Bool where
  serialName := "Go"
  kind := .record

def signalGraph : Graph Bool := fun moves => if moves then go else stop

def signal : Descriptor Bool where
  serialName := "Signal"
  kind := .polymorphic .sealed
  elements := [{ name := "Stop", target := false }, { name := "Go", target := true }]

theorem chosen_signal :
    ∃ draft, (Generator.context {} signalGraph 2 signal []).writeVariants "kind" {} =
        .ok () draft ∧
      ∃ fs, ∀ lang defs v, Validates lang defs (.object draft.fragment) v →
        Chosen signalGraph lang defs false "kind"
          ((signal.elements.map (·.variant signalGraph)).zip fs) v := by
  obtain ⟨draft, hrun⟩ : ∃ draft,
      (Generator.context {} signalGraph 2 signal []).writeVariants "kind" {} = .ok () draft :=
    ⟨_, rfl⟩
  obtain ⟨fs, _, _, hchosen⟩ := chosen_of_writeVariants hrun (by decide) (by decide)
  exact ⟨draft, hrun, fs, hchosen⟩

/-- A marker has every value, and its tag says nothing of those that are no objects. -/
theorem untagged_signal :
    ∃ draft, (Generator.context {} signalGraph 2 signal []).writeVariants "kind" {} =
        .ok () draft ∧
      (∀ e ∈ signal.elements, (e.child signalGraph).nullable = false) ∧
      (signal.elements.map fun e => (e.child signalGraph).serialName).Nodup ∧
      ∀ lang defs, Validates lang defs (.object draft.fragment) (.bool true) := by
  refine ⟨_, rfl, by decide, by decide, fun lang defs => ?_⟩
  have hstop : Validates lang defs (.object .empty) (.bool true) :=
    (stop.siteFree_shape [] []).validates_iff.mpr (allows_marker rfl)
  have hbranch : Validates lang defs (.object (branch "kind" (⟨stop, []⟩, .empty)))
      (.bool true) :=
    (validates_branch rfl).mpr ⟨hstop, fun ms hms => nomatch hms⟩
  exact validates_choice.mpr ⟨_, List.mem_cons_self, hbranch⟩

end TypeSchema
