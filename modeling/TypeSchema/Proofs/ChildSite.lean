/-
  Where the annotations of an element take effect.

  `Children g u f` says which fragments stand in `f` for the children of the type that `u` uses.
  The child of a property, an item, a value or a wrapper is built under the annotations of its
  element, for a wrapper behind those that reach it and its own. A variant is built under none
  (`children_of_build`), so what stands at the element of a variant is lost (`variant_title_lost`).
-/
import TypeSchema.Proofs.Agreement
import TypeSchema.Proofs.Position

namespace TypeSchema

variable {N : Type} {g : Graph N}

/-- The fragment of the use: some build makes it, and no build that succeeds makes another. -/
structure FragmentOf (g : Graph N) (u : Use N) (t : Object) : Prop where
  built : ∃ n r r', u.build g n r = .ok t r'
  unique : ∀ n r s r', u.build g n r = .ok s r' → s = t

/-- The branch of a hierarchy for the variant at `e`: the fragment of the variant, and its name.
The annotations of the element do not occur here. -/
def BranchOf (g : Graph N) (e : Element N) (branch : Object) : Prop :=
  ∃ body, branch.get? "allOf" = some (.array
      [.object body, .object (Context.tag Context.defaultDiscriminator (e.child g).variantName)]) ∧
    FragmentOf g ⟨e.child g, []⟩ body

/-- What stands for the children in the fragment `f` that is built in place. In a record that is
one fragment for every name, of the last element that has it. -/
structure Children (g : Graph N) (u : Use N) (f : Object) : Prop where
  properties : u.descriptor.kind = .record →
    ∃ ps, f.get? "properties" = some (.object ps) ∧
      ∀ before e after, u.descriptor.elements = before ++ e :: after →
        (∀ e' ∈ after, e'.name ≠ e.name) →
        ∃ t, ps.get? e.name = some (.object t) ∧ FragmentOf g ⟨e.child g, e.annotations⟩ t
  item : u.descriptor.kind = .list →
    ∃ e t, u.descriptor.elements = [e] ∧ f.get? "items" = some (.object t) ∧
      FragmentOf g ⟨e.child g, e.annotations⟩ t
  value : u.descriptor.kind = .map →
    ∃ key e t, u.descriptor.elements = [key, e] ∧
      f.get? "additionalProperties" = some (.object t) ∧
      FragmentOf g ⟨e.child g, e.annotations⟩ t
  /-- The wrapper hands on that it is nullable, and leaves no other trace. -/
  wrapped : u.descriptor.kind = .wrapper →
    ∃ e, u.descriptor.elements = [e] ∧ FragmentOf g
      ⟨u.descriptor.passNullable (e.child g),
        u.inherited ++ u.descriptor.annotations ++ e.annotations⟩ f
  variants : ∀ h, u.descriptor.kind = .polymorphic h →
    ∃ branches : List Object,
      f.get? "anyOf" = some (.array
        (((if u.descriptor.nullable then [nullFragment] else []) ++ branches).map .object)) ∧
      List.Forall₂ (BranchOf g) u.descriptor.elements branches

/-! ## Fragments of uses -/

theorem FragmentOf.of_build {n : Nat} {u : Use N} {t : Object} {r r' : Registry}
    (h : u.build g n r = .ok t r') : FragmentOf g u t where
  built := ⟨n, r, r', h⟩
  unique m s t' s' h' :=
    ((Generator.oblivious_default.sameResult g m n).1 u.descriptor u.inherited s r trivial
      t' s' t r' h' h).1

theorem FragmentOf.of_mapM {n : Nat} {us : List (Use N)} {fs : List Object} {r r' : Registry}
    (h : us.mapM (Use.build g n) r = .ok fs r') : List.Forall₂ (FragmentOf g) us fs := by
  induction us generalizing fs r with
  | nil =>
    rw [List.mapM_nil, pure_run, EStateM.Result.ok.injEq] at h
    obtain ⟨rfl, rfl⟩ := h
    exact .nil
  | cons u us ih =>
    obtain ⟨f, fs, r₁, rfl, hf, hfs⟩ := mapM_cons_eq_ok.mp h
    exact .cons (.of_build hf) (ih hfs)

/-! ## Places in a fragment -/

/-- A member of the first list has its counterpart at the same place of the second. -/
theorem exists_split_of_forall₂ {α β : Type} {R : α → β → Prop} {before after : List α} {a : α}
    {bs : List β} (h : List.Forall₂ R (before ++ a :: after) bs) :
    ∃ bs₁ b bs₂, bs = bs₁ ++ b :: bs₂ ∧ before.length = bs₁.length ∧ R a b := by
  induction before generalizing bs with
  | nil =>
    obtain ⟨b, bs₂, hab, _, rfl⟩ := List.forall₂_cons_left_iff.mp h
    exact ⟨[], b, bs₂, rfl, rfl, hab⟩
  | cons a' before ih =>
    obtain ⟨b', bs', _, hrest, rfl⟩ := List.forall₂_cons_left_iff.mp h
    obtain ⟨bs₁, b, bs₂, rfl, hlength, hab⟩ := ih hrest
    exact ⟨b' :: bs₁, b, bs₂, rfl, congrArg (· + 1) hlength, hab⟩

/-- Under every name stands the fragment of the last element that has it. -/
theorem Descriptor.get?_properties_of_last {R : Element N → Object → Prop} {d : Descriptor N}
    {fs : List Object} (hfs : List.Forall₂ R d.elements fs) {before after : List (Element N)}
    {e : Element N} (hes : d.elements = before ++ e :: after)
    (hlast : ∀ e' ∈ after, e'.name ≠ e.name) :
    ∃ t, (Table.ofList (d.properties fs)).get? e.name = some (.object t) ∧ R e t := by
  rw [hes] at hfs
  obtain ⟨fs₁, t, fs₂, rfl, hlength, ht⟩ := exists_split_of_forall₂ hfs
  refine ⟨t, ?_, ht⟩
  unfold properties
  rw [hes, List.zipWith_append hlength, List.zipWith_cons_cons]
  refine Table.get?_ofList_append _ fun entry hentry => ?_
  obtain ⟨⟨e', f'⟩, hp, rfl⟩ := mem_zipWith.mp hentry
  exact hlast e' (List.of_mem_zip hp).1

section

variable {u : Use N} {us : List (Use N)} {fs : List Object} {f : Object}

/-- Each branch has the fragment of its variant in front. -/
theorem forall₂_variants (es : List (Element N)) {fs : List Object}
    (h : List.Forall₂ (FragmentOf g) (es.map (·.variant g)) fs) :
    List.Forall₂ (BranchOf g) es (Descriptor.variants (es.map (·.variant g)) fs) := by
  induction es generalizing fs with
  | nil => cases h; exact .nil
  | cons e es ih =>
    obtain ⟨body, fs, hbody, hfs, rfl⟩ := List.forall₂_cons_left_iff.mp h
    exact .cons ⟨body, get?_taggedVariant _ body "allOf", hbody⟩ (ih hfs)

/-- The fragments of the parts stand at their places in the finished fragment. -/
theorem Children.of_finish (hp : Parts g u us) (hfs : List.Forall₂ (FragmentOf g) us fs)
    (hf : u.finish us fs = .ok f) : Children g u f where
  properties hk := by
    obtain rfl := hp.of_record hk
    have hshape := Use.sameShape_finish (by simp [hk]) hf
    refine ⟨Table.ofList (u.descriptor.properties fs), ?_, fun before e after hes hlast => ?_⟩
    · rw [hshape "properties" (by decide), Descriptor.get?_shape_record _ fs hk]
      rfl
    · exact Descriptor.get?_properties_of_last (List.forall₂_map_left_iff.mp hfs) hes hlast
  item hk := by
    obtain ⟨e, hes, rfl⟩ := hp.of_list hk
    obtain ⟨t, _, ht, hnil, rfl⟩ := List.forall₂_cons_left_iff.mp hfs
    cases hnil
    have hshape := Use.sameShape_finish (by simp [hk]) hf
    refine ⟨e, t, hes, ?_, ht⟩
    rw [hshape "items" (by decide), Descriptor.get?_shape_list _ hk]
    rfl
  value hk := by
    obtain ⟨key, e, hes, rfl⟩ := hp.of_map hk
    obtain ⟨t, _, ht, hnil, rfl⟩ := List.forall₂_cons_left_iff.mp hfs
    cases hnil
    have hshape := Use.sameShape_finish (by simp [hk]) hf
    refine ⟨key, e, t, hes, ?_, ht⟩
    rw [hshape "additionalProperties" (by decide), Descriptor.get?_shape_map _ hk]
    rfl
  wrapped hk := by
    obtain ⟨e, hes, rfl⟩ := hp.of_wrapper hk
    obtain ⟨t, _, ht, hnil, rfl⟩ := List.forall₂_cons_left_iff.mp hfs
    cases hnil
    obtain rfl := Use.finish_wrapper hk hf
    exact ⟨e, hes, ht⟩
  variants h hk := by
    obtain rfl := hp.of_polymorphic hk
    have hshape := Use.sameShape_finish (by simp [hk]) hf
    refine ⟨Descriptor.variants _ fs, ?_, forall₂_variants _ hfs⟩
    rw [hshape "anyOf" (by decide), Descriptor.get?_shape_polymorphic _ fs hk]
    rfl

theorem Children.of_inPlace {n : Nat} {r r' : Registry} (h : u.inPlace g n r = .ok f r') :
    Children g u f := by
  obtain ⟨m, _, us, fs, hus, hfs, hf⟩ := inPlace_eq_ok h
  exact .of_finish (.of_parts hus) (FragmentOf.of_mapM hfs) hf

end

/-- A build that succeeds has the fragments of the children, each made at its site, in the fragment
that it gives or, if that is a pointer to a new key, in the definition under the key. -/
theorem children_of_build {n : Nat} {d : Descriptor N} {inherited : Annotations} {f : Object}
    {r r' : Registry} (h : Generator.build {} g n d inherited r = .ok f r') :
    (d.requestedKey? inherited = none → Children g ⟨d, inherited⟩ f) ∧
    ∀ key, d.requestedKey? inherited = some key → r.contains key = false →
      ∃ t, r'.get? key = some t ∧ Children g (Use.definition ⟨d, inherited⟩) t := by
  let u : Use N := ⟨d, inherited⟩
  change u.build g n r = .ok f r' at h
  cases n with
  | zero =>
    rw [Use.build_zero, throw_run] at h
    cases h
  | succ n =>
    constructor
    · intro hkey
      rw [Use.build_unkeyed g n (u := u) hkey] at h
      exact .of_inPlace h
    · intro key hkey hnew
      rw [Use.build_keyed g n (u := u) hkey, ofExcept_bind_eq_ok] at h
      obtain ⟨_, _, h⟩ := h
      obtain ⟨_, r₁, hrequest, h⟩ := bind_eq_ok.mp h
      obtain ⟨_, rfl⟩ := ofExcept_eq_ok.mp h
      rw [request_unknown_some hnew] at hrequest
      cases hd : u.definition.inPlace g n (r.insert key .pending) with
      | error e r₂ => rw [hd] at hrequest; cases hrequest
      | ok t r₂ =>
        rw [hd] at hrequest
        cases hrequest
        refine ⟨t, ?_, .of_inPlace hd⟩
        rw [Registry.get?_insert_ready, if_pos rfl]

/-! ## A title on a property and on a variant -/

def shapes : Graph Nat
  | 0 => {
      serialName := "Shape"
      kind := .polymorphic .sealed
      elements := [{ name := "Circle", target := 1, annotations := [.text .title "round"] }] }
  | 1 => { serialName := "Circle", kind := .record }
  | _ => {
      serialName := "Drawing"
      kind := .record
      elements := [{ name := "seal", target := 1, annotations := [.text .title "round"] }] }

theorem children_of_build_drawing : ∃ f, Generator.build {} shapes 4 (shapes 2) [] {} = .ok f {} ∧
    Children shapes ⟨shapes 2, []⟩ f := by
  obtain ⟨f, hf⟩ : ∃ f, Generator.build {} shapes 4 (shapes 2) [] {} = .ok f {} := ⟨_, rfl⟩
  exact ⟨f, hf, (children_of_build hf).1 rfl⟩

/-- The title of the variant does not get into its fragment, though it would be written there. -/
theorem variant_title_lost : ∃ e f body, (shapes 0).elements = [e] ∧
    Generator.build {} shapes 4 (shapes 0) [] {} = .ok f {} ∧
    f.get? "anyOf" = some (.array [.object (taggedVariant "Circle" body)]) ∧
    ¬ FragmentOf shapes ⟨e.child shapes, e.annotations⟩ body := by
  refine ⟨_, _, _, rfl, rfl, rfl, fun h => ?_⟩
  obtain ⟨t, ht, hne⟩ : ∃ t, Use.build shapes 4 ⟨shapes 1, [.text .title "round"]⟩ {} = .ok t {} ∧
      t.get? "title" = some (.string "round") := ⟨_, rfl, rfl⟩
  obtain rfl := h.unique 4 {} t {} ht
  cases hne

end TypeSchema
