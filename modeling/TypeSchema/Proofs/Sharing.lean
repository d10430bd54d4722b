/-
  Definitions against what is built in place, by induction along the graph.

  A schema that shares definitions and the schema of the same graph without requests are compared
  use by use: `HasInline g Q u` says that whatever fragment a use has, the bare use has one built
  in place that `Q` relates to it. If `Q` is kept when parts are put together, and carries over
  from a definition to the pointers that lead to it, then it holds of all uses that are met, as
  long as no type contains itself (`hasInline_of_meets`).
-/
import Mathlib.Data.List.Forall2
import TypeSchema.Proofs.UseSite

namespace TypeSchema

variable {N : Type} {g : Graph N}

/-- Whatever fragment the use has, the bare use has one built in place that `Q` relates to it. -/
def HasInline (g : Graph N) (Q : Object → Object → Prop) (u : Use N) : Prop :=
  ∀ f, Fragments g [u] [f] → ∃ f', Inline g.withoutRefs [u.withoutRefs] [f'] ∧ Q f f'

/-- `Q` relates the fragments that are put together from fragments it relates. -/
def Congruent (g : Graph N) (Q : Object → Object → Prop) : Prop :=
  ∀ (u : Use N) (us : List (Use N)) (fs fs' : List Object) (f : Object), Parts g u us →
    us.length = fs.length → u.finish us fs = .ok f → List.Forall₂ Q fs fs' →
    ∃ f', u.finish us fs' = .ok f' ∧ Q f f'

/-! ## Cycles -/

/-- Steps between uses that lead back are a cycle of children. -/
theorem transGen_child_of_steps {u v : Use N} (h : Relation.TransGen (Steps g) u v) :
    ∃ c, Relation.TransGen (Child g) u.descriptor c ∧
      (v.descriptor = c ∨ v.descriptor = c.intoNullable) := by
  induction h with
  | single hstep =>
    obtain ⟨c, hc, hvc⟩ := child_of_steps hstep
    exact ⟨c, .single hc, hvc⟩
  | tail _ hstep ih =>
    obtain ⟨x, hx, hux⟩ := ih
    obtain ⟨c, hc, hvc⟩ := child_of_steps hstep
    exact ⟨c, hx.tail (hc.of_outline (Descriptor.outline_eq_of_or hux)), hvc⟩

theorem not_transGen_steps {root u : Use N}
    (hacyclic : ∀ x, Reaches g root.descriptor x → ¬ Relation.TransGen (Child g) x x)
    (hu : Meets g root u) : ¬ Relation.TransGen (Steps g) u u := by
  intro hcycle
  obtain ⟨c, hc, huc⟩ := transGen_child_of_steps hcycle
  obtain ⟨x, hx, hux⟩ := reaches_of_meets hu
  -- the cycle starts at any descriptor of this outline
  have hfrom : ∀ y : Descriptor N, u.descriptor.outline = y.outline →
      Relation.TransGen (Child g) y c := by
    intro y hy
    obtain ⟨z, hz, hzc⟩ := Relation.TransGen.head'_iff.mp hc
    exact Relation.TransGen.head'_iff.mpr ⟨z, hz.of_outline hy, hzc⟩
  have hreach : Reaches g root.descriptor c :=
    hx.trans (hfrom x (Descriptor.outline_eq_of_or hux)).to_reflTransGen
  exact hacyclic c hreach (hfrom c (Descriptor.outline_eq_of_or huc))

/-- Where no descriptor of the graph has elements, a cycle has nowhere to go. -/
theorem not_transGen_child_of_leaves (h : ∀ n, (g n).elements = []) (x : Descriptor N) :
    ¬ Relation.TransGen (Child g) x x := by
  intro hcycle
  obtain ⟨y, _, ⟨e, _, rfl⟩⟩ := Relation.TransGen.tail'_iff.mp hcycle
  obtain ⟨z, ⟨e', he', _⟩, _⟩ := Relation.TransGen.head'_iff.mp hcycle
  change e' ∈ (g e.target).elements at he'
  rw [h] at he'
  cases he'

/-! ## Lists -/

theorem Fragments.of_cons {u : Use N} {us : List (Use N)} {f : Object} {fs : List Object}
    (h : Fragments g (u :: us) (f :: fs)) : Fragments g [u] [f] ∧ Fragments g us fs := by
  cases h with
  | inPlace n hk hp hus hf hvs => exact ⟨.inPlace n hk hp hus hf .nil, hvs⟩
  | pointer n hk hf hvs => exact ⟨.pointer n hk hf .nil, hvs⟩

theorem Inline.of_cons {u : Use N} {us : List (Use N)} {f : Object} {fs : List Object}
    (h : Inline g [u] [f]) (h' : Inline g us fs) : Inline g (u :: us) (f :: fs) := by
  cases h with
  | cons n hp hus hf _ => exact .cons n hp hus hf h'

variable {Q : Object → Object → Prop}

theorem exists_inline {us : List (Use N)} {fs : List Object} (h : Fragments g us fs)
    (hus : ∀ u ∈ us, HasInline g Q u) :
    ∃ fs', Inline g.withoutRefs (us.map (·.withoutRefs)) fs' ∧ List.Forall₂ Q fs fs' := by
  induction us generalizing fs with
  | nil =>
    cases h
    exact ⟨[], .nil, .nil⟩
  | cons u us ih =>
    obtain ⟨f, fs, rfl⟩ := List.exists_cons_of_length_eq_add_one h.length_eq.symm
    obtain ⟨hu, hvs⟩ := h.of_cons
    obtain ⟨f', hf', hq⟩ := hus u List.mem_cons_self f hu
    obtain ⟨fs', hfs', hall⟩ := ih hvs fun v hv => hus v (List.mem_cons_of_mem _ hv)
    exact ⟨f' :: fs', hf'.of_cons hfs', .cons hq hall⟩

/-! ## Definitions -/

theorem Annotations.withoutRefs_withoutRefs (as : Annotations) :
    as.withoutRefs.withoutRefs = as.withoutRefs := by
  unfold withoutRefs
  rw [List.filter_filter]
  simp

theorem Descriptor.withoutRefs_withoutRefs (d : Descriptor N) :
    d.withoutRefs.withoutRefs = d.withoutRefs := by
  have helement : ∀ e : Element N, e.withoutRefs.withoutRefs = e.withoutRefs := by
    intro e
    unfold Element.withoutRefs
    dsimp only
    rw [Annotations.withoutRefs_withoutRefs]
  unfold withoutRefs
  dsimp only
  rw [Annotations.withoutRefs_withoutRefs, List.map_map]
  simp only [Function.comp_def, helement]

theorem Use.withoutRefs_definition (u : Use N) :
    u.definition.withoutRefs = ⟨u.descriptor.nonNullable.withoutRefs, []⟩ := by
  unfold definition
  split
  · unfold withoutRefs
    rw [Descriptor.withoutRefs_withoutRefs]
    rfl
  · rfl

/-- Without requests a use has the bare type made nullable, under its own annotations. -/
theorem relaxes_nonNullable (d : Descriptor N) :
    Relaxes d.nullable d.nonNullable.withoutRefs d.withoutRefs where
  kind := (Descriptor.kind_eq_of_outline d.outline_nonNullable).symm
  annotations := by
    show d.annotations.withoutRefs = d.nonNullable.annotations.withoutRefs
    rw [Use.annotations_nonNullable]
  elements := by
    show d.elements.map _ = d.nonNullable.elements.map _
    rw [Use.elements_nonNullable]
  nullable := by
    show d.nullable = (d.nonNullable.nullable || d.nullable)
    rw [Use.nullable_nonNullable, Bool.false_or]

/-! ## All uses -/

/-- What is built in place has its counterpart if the parts have. -/
theorem Whole.exists_inline (hQ : Congruent g Q) {u : Use N} {t : Object} (h : Whole g u t)
    (hparts : ∀ n us, u.parts g n = .ok us → ∀ v ∈ us, HasInline g Q v) :
    ∃ t', Inline g.withoutRefs [u.withoutRefs] [t'] ∧ Q t t' := by
  obtain ⟨n, us, fs, hp, hfs, ht⟩ := h
  obtain ⟨fs', hfs', hall⟩ := TypeSchema.exists_inline hfs (hparts n us hp)
  obtain ⟨t', ht', hq⟩ := hQ u us fs fs' t (Parts.of_parts hp) hfs.length_eq ht hall
  refine ⟨t', .cons n (Use.parts_withoutRefs hp) hfs' ?_ .nil, hq⟩
  rw [Use.finish_withoutRefs]
  exact ht'

/-- The relation reaches every use that is met, by induction along the graph. -/
theorem hasInline_of_meets {root : Use N} {r : Registry} {S : List (Use N)}
    (hacyclic : ∀ x, Reaches g root.descriptor x → ¬ Relation.TransGen (Child g) x x)
    (hone : OneTypePerKey g root) (hS : Visits g {} r [root] S) (hQ : Congruent g Q)
    (hpointer : ∀ u n key f t t', Meets g root u → u.key? = some key →
      u.pointer g n key = .ok f → r.get? key = some t →
      Inline g.withoutRefs [u.definition.withoutRefs] [t'] → Q t t' →
      ∃ f', Inline g.withoutRefs [u.withoutRefs] [f'] ∧ Q f f')
    {u : Use N} (hu : Meets g root u) : HasInline g Q u := by
  have hfin : Set.Finite {u | Meets g root u} :=
    S.finite_toSet.subset fun u hu => hS.mem_of_meets hone hu
  refine induction_of_acyclic hfin (fun u hu v hv => hu.tail hv)
    (fun u hu => not_transGen_steps hacyclic hu) (fun u hu ih => ?_) u hu
  intro f hf
  have hparts : ∀ n us, u.content.parts g n = .ok us → ∀ v ∈ us, HasInline g Q v :=
    fun n us hp v hv => ih v ⟨n, us, hp, hv⟩
  cases hf with
  | inPlace n hk hp hus hf _ =>
    rw [Use.content_of_unkeyed hk] at hparts
    exact Whole.exists_inline hQ ⟨n, _, _, hp, hus, hf⟩ hparts
  | @pointer _ _ _ _ key n hk hf _ =>
    rw [Use.content_of_keyed hk] at hparts
    obtain ⟨t, ht, hwhole⟩ := hS.whole hone hu hk
    obtain ⟨t', ht', hq⟩ := hwhole.exists_inline hQ hparts
    exact hpointer u n key f t t' hu hk hf ht ht' hq

end TypeSchema
