/-
  The descriptors that a descriptor leads to.

  `Child g d c` says that `c` stands at an element of `d`, and `Reaches g d x` that `x` is found
  by going on like this. What a build makes of a use are uses of the children that it needs, at
  most made nullable (`needs_of_parts`). So what holds of all descriptors within reach, and only
  depends on their outline, holds of everything that is built.
-/
import Mathlib.Data.Set.Finite.Basic
import Mathlib.Logic.Relation
import TypeSchema.Proofs.Parts

namespace TypeSchema

variable {N : Type}

/-- The element without its annotations. -/
def Element.bare (e : Element N) : Element N := { e with annotations := [] }

/-- The kind and the elements, without names, annotations and nullability. -/
def Descriptor.outline (d : Descriptor N) : Kind × List (Element N) :=
  (d.kind, d.elements.map (·.bare))

def Child (g : Graph N) (d c : Descriptor N) : Prop := ∃ e ∈ d.elements, c = e.child g

def Reaches (g : Graph N) : Descriptor N → Descriptor N → Prop :=
  Relation.ReflTransGen (Child g)

/-- The fragment of `x` is made from that of `c`. This leaves out the keys of maps and the cases of
enumerations, and the elements of a list, a map or a wrapper that has too many or too few. -/
inductive Needs (g : Graph N) (x : Descriptor N) : Descriptor N → Prop
  | property {e : Element N} : x.kind = .record → e ∈ x.elements → Needs g x (e.child g)
  | item {e : Element N} : x.kind = .list → x.elements = [e] → Needs g x (e.child g)
  | value {key e : Element N} : x.kind = .map → x.elements = [key, e] → Needs g x (e.child g)
  | variant {h : Hierarchy} {e : Element N} : x.kind = .polymorphic h → e ∈ x.elements →
    Needs g x (e.child g)
  | inner {e : Element N} : x.kind = .wrapper → x.elements = [e] → Needs g x (e.child g)

/-- The records within reach of `d` have an element for each name only once. -/
def DistinctNames (g : Graph N) (d : Descriptor N) : Prop :=
  ∀ x, Reaches g d x → x.kind = .record → x.elementNames.Nodup

/-! ## Outlines -/

namespace Descriptor

theorem outline_intoNullable (d : Descriptor N) : d.intoNullable.outline = d.outline := by
  unfold intoNullable
  split <;> rfl

theorem elements_intoNullable (d : Descriptor N) : d.intoNullable.elements = d.elements := by
  unfold intoNullable
  split <;> rfl

theorem annotations_intoNullable (d : Descriptor N) :
    d.intoNullable.annotations = d.annotations := by
  unfold intoNullable
  split <;> rfl

theorem outline_eq_of_or {d c : Descriptor N} (h : d = c ∨ d = c.intoNullable) :
    d.outline = c.outline := by
  rcases h with rfl | rfl
  · rfl
  · exact c.outline_intoNullable

theorem passNullable_eq_or (d c : Descriptor N) :
    d.passNullable c = c ∨ d.passNullable c = c.intoNullable := by
  unfold passNullable
  split
  · exact Or.inr rfl
  · exact Or.inl rfl

theorem outline_passNullable (d c : Descriptor N) : (d.passNullable c).outline = c.outline :=
  outline_eq_of_or (d.passNullable_eq_or c)

theorem nullable_intoNullable (d : Descriptor N) : d.intoNullable.nullable = true := by
  unfold intoNullable
  split
  · next h => exact h
  · rfl

theorem outline_nonNullable (d : Descriptor N) : d.nonNullable.outline = d.outline := by
  unfold nonNullable
  split <;> rfl

theorem outline_withoutRefs (d : Descriptor N) : d.withoutRefs.outline = d.outline := by
  unfold withoutRefs outline
  rw [List.map_map]
  rfl

theorem kind_eq_of_outline {d d' : Descriptor N} (h : d.outline = d'.outline) :
    d.kind = d'.kind := congrArg Prod.fst h

theorem elements_eq_of_outline {d d' : Descriptor N} (h : d.outline = d'.outline) :
    d.elements.map (·.bare) = d'.elements.map (·.bare) := congrArg Prod.snd h

/-- Every element has its counterpart in a descriptor of the same outline. -/
theorem exists_bare_eq {d d' : Descriptor N} (h : d.outline = d'.outline) {e : Element N}
    (he : e ∈ d.elements) : ∃ e' ∈ d'.elements, e'.bare = e.bare := by
  have hmem : e.bare ∈ d.elements.map (·.bare) := List.mem_map_of_mem he
  rw [elements_eq_of_outline h] at hmem
  exact List.mem_map.mp hmem

theorem elements_eq_singleton {d d' : Descriptor N} (h : d.outline = d'.outline)
    {e : Element N} (he : d.elements = [e]) : ∃ e', d'.elements = [e'] ∧ e'.bare = e.bare := by
  have hes := elements_eq_of_outline h
  rw [he, List.map_singleton] at hes
  obtain ⟨e', he', hbare⟩ := List.map_eq_singleton_iff.mp hes.symm
  exact ⟨e', he', hbare⟩

theorem elements_eq_pair {d d' : Descriptor N} (h : d.outline = d'.outline)
    {e₁ e₂ : Element N} (he : d.elements = [e₁, e₂]) :
    ∃ e₁' e₂', d'.elements = [e₁', e₂'] ∧ e₁'.bare = e₁.bare ∧ e₂'.bare = e₂.bare := by
  have hes := (elements_eq_of_outline h).symm
  rw [he, List.map_cons] at hes
  obtain ⟨e₁', es, he', hbare₁, hes⟩ := List.map_eq_cons_iff.mp hes
  obtain ⟨e₂', rfl, hbare₂⟩ := List.map_eq_singleton_iff.mp hes
  exact ⟨e₁', e₂', he', hbare₁, hbare₂⟩

theorem elementNames_eq_of_outline {d d' : Descriptor N} (h : d.outline = d'.outline) :
    d.elementNames = d'.elementNames := by
  have hnames : ∀ x : Descriptor N, x.elementNames = (x.elements.map (·.bare)).map (·.name) := by
    intro x
    unfold elementNames
    rw [List.map_map]
    rfl
  rw [hnames d, hnames d', elements_eq_of_outline h]

end Descriptor

namespace Element

variable {e e' : Element N}

theorem name_eq_of_bare (h : e'.bare = e.bare) : e'.name = e.name := by
  have hname : e'.bare.name = e.bare.name := by rw [h]
  exact hname

theorem optional_eq_of_bare (h : e'.bare = e.bare) : e'.optional = e.optional := by
  have hoptional : e'.bare.optional = e.bare.optional := by rw [h]
  exact hoptional

theorem child_eq_of_bare (g : Graph N) (h : e'.bare = e.bare) : e'.child g = e.child g := by
  have htarget : e'.bare.target = e.bare.target := by rw [h]
  exact congrArg g htarget

end Element

/-- The child of the only element is the same for all descriptors of one outline. -/
theorem Descriptor.child_eq_of_singleton (g : Graph N) {d d' : Descriptor N}
    (h : d'.outline = d.outline) {e e' : Element N} (he : d.elements = [e])
    (he' : d'.elements = [e']) : e'.child g = e.child g := by
  obtain ⟨e'', he'', hbare⟩ := elements_eq_singleton h.symm he
  obtain rfl : e' = e'' := by simpa [he'] using he''
  exact Element.child_eq_of_bare g hbare

/-- The same of the second of two elements. -/
theorem Descriptor.child_eq_of_pair (g : Graph N) {d d' : Descriptor N}
    (h : d'.outline = d.outline) {e₁ e₁' e₂ e₂' : Element N} (he : d.elements = [e₁, e₂])
    (he' : d'.elements = [e₁', e₂']) : e₂'.child g = e₂.child g := by
  obtain ⟨e₁'', e₂'', he'', _, hbare⟩ := elements_eq_pair h.symm he
  obtain ⟨_, rfl⟩ : e₁' = e₁'' ∧ e₂' = e₂'' := by simpa [he'] using he''
  exact Element.child_eq_of_bare g hbare

theorem Use.outline_definition (u : Use N) :
    u.definition.descriptor.outline = u.descriptor.outline := by
  unfold Use.definition
  split
  · exact (Descriptor.outline_withoutRefs _).trans (Descriptor.outline_nonNullable _)
  · exact Descriptor.outline_nonNullable _

/-! ## Children -/

variable {g : Graph N}

theorem Child.of_outline {d d' c : Descriptor N} (h : d.outline = d'.outline)
    (hc : Child g d c) : Child g d' c := by
  obtain ⟨e, he, rfl⟩ := hc
  obtain ⟨e', he', hbare⟩ := Descriptor.exists_bare_eq h he
  exact ⟨e', he', (Element.child_eq_of_bare g hbare).symm⟩

theorem Needs.child {x c : Descriptor N} (h : Needs g x c) : Child g x c := by
  cases h with
  | property _ he => exact ⟨_, he, rfl⟩
  | item _ hes => exact ⟨_, by simp [hes], rfl⟩
  | value _ hes => exact ⟨_, by simp [hes], rfl⟩
  | variant _ he => exact ⟨_, he, rfl⟩
  | inner _ hes => exact ⟨_, by simp [hes], rfl⟩

theorem Needs.of_outline {x x' c : Descriptor N} (h : x.outline = x'.outline)
    (hc : Needs g x c) : Needs g x' c := by
  have hkind := Descriptor.kind_eq_of_outline h
  cases hc with
  | property hk he =>
    obtain ⟨e', he', hbare⟩ := Descriptor.exists_bare_eq h he
    rw [← Element.child_eq_of_bare g hbare]
    exact .property (hkind ▸ hk) he'
  | item hk hes =>
    obtain ⟨e', hes', hbare⟩ := Descriptor.elements_eq_singleton h hes
    rw [← Element.child_eq_of_bare g hbare]
    exact .item (hkind ▸ hk) hes'
  | value hk hes =>
    obtain ⟨_, e', hes', _, hbare⟩ := Descriptor.elements_eq_pair h hes
    rw [← Element.child_eq_of_bare g hbare]
    exact .value (hkind ▸ hk) hes'
  | variant hk he =>
    obtain ⟨e', he', hbare⟩ := Descriptor.exists_bare_eq h he
    rw [← Element.child_eq_of_bare g hbare]
    exact .variant (hkind ▸ hk) he'
  | inner hk hes =>
    obtain ⟨e', hes', hbare⟩ := Descriptor.elements_eq_singleton h hes
    rw [← Element.child_eq_of_bare g hbare]
    exact .inner (hkind ▸ hk) hes'

/-- The same is within proper reach of descriptors of the same outline. -/
theorem Reaches.of_outline {d d' x : Descriptor N} (h : d.outline = d'.outline)
    (hx : Reaches g d x) : x = d ∨ Reaches g d' x := by
  rcases Relation.ReflTransGen.cases_head hx with hx | ⟨c, hc, hx⟩
  · exact Or.inl hx.symm
  · exact Or.inr (.head (hc.of_outline h) hx)

theorem DistinctNames.of_outline {d d' : Descriptor N} (h : d.outline = d'.outline)
    (hd : DistinctNames g d) : DistinctNames g d' := by
  intro x hx hk
  rcases hx.of_outline h.symm with rfl | hx
  · rw [← Descriptor.elementNames_eq_of_outline h]
    exact hd d .refl ((Descriptor.kind_eq_of_outline h).trans hk)
  · exact hd x hx hk

theorem DistinctNames.of_child {d c : Descriptor N} (h : Child g d c)
    (hd : DistinctNames g d) : DistinctNames g c :=
  fun x hx => hd x (.head h hx)

/-! ## Parts -/

/-- What a part is a use of: a descriptor that is needed, or that descriptor made nullable. -/
theorem needs_of_parts {u v : Use N} {us : List (Use N)} (h : Parts g u us) (hv : v ∈ us) :
    ∃ c, Needs g u.descriptor c ∧ (v.descriptor = c ∨ v.descriptor = c.intoNullable) := by
  cases h with
  | primitive p hk => cases hv
  | enumeration hk => cases hv
  | marker hk => cases hv
  | record hk =>
    obtain ⟨e, he, rfl⟩ := List.mem_map.mp hv
    exact ⟨e.child g, .property hk he, Or.inl rfl⟩
  | list item hk hes =>
    obtain rfl := List.mem_singleton.mp hv
    exact ⟨item.child g, .item hk hes, Or.inl rfl⟩
  | map key value hk hes =>
    obtain rfl := List.mem_singleton.mp hv
    exact ⟨value.child g, .value hk hes, Or.inl rfl⟩
  | polymorphic k hk =>
    obtain ⟨e, he, rfl⟩ := List.mem_map.mp hv
    exact ⟨e.child g, .variant hk he, Or.inl rfl⟩
  | wrapper value hk hes =>
    obtain rfl := List.mem_singleton.mp hv
    exact ⟨value.child g, .inner hk hes, Descriptor.passNullable_eq_or _ _⟩

theorem child_of_parts {u v : Use N} {us : List (Use N)} (h : Parts g u us) (hv : v ∈ us) :
    ∃ c, Child g u.descriptor c ∧ (v.descriptor = c ∨ v.descriptor = c.intoNullable) := by
  obtain ⟨c, hc, hvc⟩ := needs_of_parts h hv
  exact ⟨c, hc.child, hvc⟩

/-- A part inherits from the use, from its type and from one of the elements, and from nowhere
else. -/
theorem mem_inherited_of_parts {u v : Use N} {us : List (Use N)} (h : Parts g u us) (hv : v ∈ us)
    {a : Annotation} (ha : a ∈ v.inherited) : a ∈ u.inherited ∨ a ∈ u.descriptor.annotations ∨
      ∃ e ∈ u.descriptor.elements, a ∈ e.annotations := by
  cases h with
  | primitive p hk => cases hv
  | enumeration hk => cases hv
  | marker hk => cases hv
  | record hk =>
    obtain ⟨e, he, rfl⟩ := List.mem_map.mp hv
    exact Or.inr (Or.inr ⟨e, he, ha⟩)
  | list item hk hes =>
    obtain rfl := List.mem_singleton.mp hv
    exact Or.inr (Or.inr ⟨item, by simp [hes], ha⟩)
  | map key value hk hes =>
    obtain rfl := List.mem_singleton.mp hv
    exact Or.inr (Or.inr ⟨value, by simp [hes], ha⟩)
  | polymorphic k hk =>
    obtain ⟨e, he, rfl⟩ := List.mem_map.mp hv
    exact absurd ha List.not_mem_nil
  | wrapper value hk hes =>
    obtain rfl := List.mem_singleton.mp hv
    rcases List.mem_append.mp ha with ha | ha
    · exact (List.mem_append.mp ha).imp_right Or.inl
    · exact Or.inr (Or.inr ⟨value, by simp [hes], ha⟩)

theorem DistinctNames.of_parts {u v : Use N} {us : List (Use N)}
    (hd : DistinctNames g u.descriptor) (h : Parts g u us) (hv : v ∈ us) :
    DistinctNames g v.descriptor := by
  obtain ⟨c, hc, hvc⟩ := child_of_parts h hv
  exact (hd.of_child hc).of_outline (Descriptor.outline_eq_of_or hvc).symm

theorem DistinctNames.of_definition {u : Use N} (hd : DistinctNames g u.descriptor) :
    DistinctNames g u.definition.descriptor := hd.of_outline u.outline_definition.symm

/-! ## Induction without cycles -/

/-- On a finite set without a cycle of `r`, what holds of a point if it holds of the points that
it leads to holds everywhere. -/
theorem induction_of_acyclic {α : Type} {r : α → α → Prop} {S : Set α} (hfin : S.Finite)
    (hclosed : ∀ x ∈ S, ∀ y, r x y → y ∈ S) (hacyclic : ∀ x ∈ S, ¬ Relation.TransGen r x x)
    {P : α → Prop} (hstep : ∀ x ∈ S, (∀ y, r x y → P y) → P x) : ∀ x ∈ S, P x := by
  have : Finite S := hfin
  let next (y x : S) : Prop := Relation.TransGen r x.1 y.1
  have : IsTrans S next := ⟨fun _ _ _ h h' => h'.trans h⟩
  have : Std.Irrefl next := ⟨fun x hx => hacyclic x.1 x.2 hx⟩
  have hwf : WellFounded next := Finite.wellFounded_of_trans_of_irrefl next
  have hall : ∀ x : S, P x.1 := fun x => hwf.induction x fun x ih =>
    hstep x.1 x.2 fun y hy => ih ⟨y, hclosed x.1 x.2 y hy⟩ (.single hy)
  exact fun x hx => hall ⟨x, hx⟩

/-! ## A record that contains itself -/

/-- Where one descriptor stands at every node, nothing else is within reach. -/
theorem eq_of_reaches_const {d x : Descriptor N} (h : Reaches (fun _ => d) d x) : x = d := by
  induction h with
  | refl => rfl
  | tail _ hc _ =>
    obtain ⟨_, _, rfl⟩ := hc
    rfl

theorem distinctNames_const {d : Descriptor N} (h : d.elementNames.Nodup) :
    DistinctNames (fun _ => d) d := by
  intro x hx _
  rw [eq_of_reaches_const hx]
  exact h

/-- A record that may hold another one of its type. -/
def link : Descriptor Unit where
  serialName := "Link"
  kind := .record
  annotations := [.refBySerialName]
  elements := [{ name := "next", target := (), optional := true }]

def linkGraph : Graph Unit := fun _ => link

theorem eq_link_of_reaches {x : Descriptor Unit} (h : Reaches linkGraph link x) : x = link :=
  eq_of_reaches_const h

theorem distinctNames_link : DistinctNames linkGraph link := distinctNames_const (by decide)

end TypeSchema
