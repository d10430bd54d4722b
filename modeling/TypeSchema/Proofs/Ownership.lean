/-
  Whose definition stands under a key.

  Nothing but its key says which definition a use points to. `MetAt g r us u s` says that the
  generator comes to the use `u` while it builds `us` from the registry `r`, and finds the
  registry `s` there; `First g root key w` that `w` is the one that comes with `key` while the key
  is new. What stands under the key in the end is what the type of `w` is defined as
  (`OwnDefinition`), and every later use of the key points to it, whatever its own type is. So a
  pointer leads to the definition of its own type wherever that type asked first
  (`definition_of_first`), and nowhere else in general (`definition_not_own`).
-/
import TypeSchema.Proofs.Agreement
import TypeSchema.Proofs.Definitions
import TypeSchema.Proofs.Growth
import TypeSchema.Proofs.UseSite

namespace TypeSchema

variable {N : Type} {g : Graph N}

/-- While `us` are built from `r`, in order, the generator comes to `u` with the registry `s`. -/
inductive MetAt (g : Graph N) : Registry → List (Use N) → Use N → Registry → Prop
  | here {r u us} : MetAt g r (u :: us) u r
  | later {r r₁ x us u s f} (n : Nat) :
    x.build g n r = .ok f r₁ → MetAt g r₁ us u s → MetAt g r (x :: us) u s
  | part {r x xs us u s} (n : Nat) :
    x.key? = none → x.parts g n = .ok xs → MetAt g r xs u s → MetAt g r (x :: us) u s
  /-- The parts of a definition are met where the definition is built, its key pending. -/
  | ofDefinition {r x xs us u s key} (n : Nat) :
    x.key? = some key → r.contains key = false → x.definition.parts g n = .ok xs →
    MetAt g (r.insert key .pending) xs u s → MetAt g r (x :: us) u s

/-- In the call for `root`, the use `w` comes with `key` while the key is new. -/
def First (g : Graph N) (root : Use N) (key : String) (w : Use N) : Prop :=
  w.key? = some key ∧ ∃ s, MetAt g {} [root] w s ∧ s.contains key = false

/-- The build has the result `a`, for some amount of fuel and from some registry, and no other
result for any amount from any. -/
structure Yields {α : Type} (b : Nat → Build α) (a : α) : Prop where
  succeeds : ∃ n r r', b n r = .ok a r'
  only : ∀ n r a' r', b n r = .ok a' r' → a' = a

/-- The definition of a type: its encoding under its own annotations, without `null`, and for a
wrapper the fragment of the value inside, under the annotations of both that ask for no key. -/
inductive OwnDefinition (g : Graph N) (d : Descriptor N) (t : Object) : Prop
  | type : d.isWrapper = false →
    Yields (fun n => Generator.dispatch {} g n d.nonNullable d.annotations) t → OwnDefinition g d t
  | wrapper (value : Element N) : d.isWrapper = true → d.elements = [value] →
    Yields (fun n => Generator.build {} g n (value.child g)
      (d.annotations ++ value.annotations).withoutRefs) t → OwnDefinition g d t

/-- The keys of the map are strings, inside whatever wrappers. -/
def Descriptor.StringKeyed (g : Graph N) (d : Descriptor N) : Prop :=
  ∃ key value, d.elements = [key, value] ∧ InnerKind g (key.child g) (.primitive .string)

/-! ## What is met -/

section

variable {r r' s : Registry} {us : List (Use N)} {u : Use N} {fs : List Object}

/-- What is met in a build that succeeds is built there, and the end keeps what that leaves. -/
theorem MetAt.builds (h : MetAt g r us u s) (hb : Builds g r us fs r') :
    ∃ f s', Builds g s [u] [f] s' ∧ s'.Grows r' := by
  induction h generalizing fs r' with
  | here =>
    obtain ⟨f, _, r₁, rfl, hu, hus⟩ := hb.uncons
    exact ⟨f, r₁, hu, hus.kept.grows⟩
  | later n hx _ ih =>
    obtain ⟨_, _, r₁, rfl, hu, hus⟩ := hb.uncons
    obtain ⟨_, rfl⟩ := hu.unique (builds_of_build hx)
    exact ih hus
  | part n hk hp _ ih =>
    cases hb with
    | inPlace m _ hp' hxs _ hvs =>
      obtain rfl := parts_unique hp hp'
      obtain ⟨f, s', hu, hgrows⟩ := ih hxs
      exact ⟨f, s', hu, hgrows.trans hvs.kept.grows⟩
    | known m hk' _ _ _ => rw [hk] at hk'; cases hk'
    | defined m m' hk' _ _ _ _ _ _ => rw [hk] at hk'; cases hk'
  | ofDefinition n hk hc hp _ ih =>
    cases hb with
    | inPlace m hk' _ _ _ _ => rw [hk] at hk'; cases hk'
    | known m hk' hc' _ _ =>
      rw [hk] at hk'
      cases hk'
      rw [hc] at hc'
      cases hc'
    | @defined _ _ _ _ _ _ t _ _ _ _ m m' hk' _ hp' hxs _ _ hvs =>
      rw [hk] at hk'
      cases hk'
      obtain rfl := parts_unique hp hp'
      obtain ⟨f, s', hu, hgrows⟩ := ih hxs
      exact ⟨f, s', hu, (hgrows.trans (hxs.grows_ready t)).trans hvs.kept.grows⟩

/-- A key that a build has added was new to a use that came with it. -/
theorem exists_metAt (hb : Builds g r us fs r') {key : String} (hr : r.contains key = false)
    (hr' : r'.contains key = true) :
    ∃ w s, MetAt g r us w s ∧ w.key? = some key ∧ s.contains key = false := by
  induction hb with
  | nil r => rw [hr] at hr'; cases hr'
  | @inPlace u us vs fs _ f r r₁ _ n hk hp hxs hf _ ihxs ihvs =>
    cases hc₁ : r₁.contains key with
    | true =>
      obtain ⟨w, s, hw, hwk, hs⟩ := ihxs hr hc₁
      exact ⟨w, s, .part n hk hp hw, hwk, hs⟩
    | false =>
      obtain ⟨m, hrun⟩ := (Builds.inPlace n hk hp hxs hf (.nil r₁)).exists_run
      obtain ⟨w, s, hw, hwk, hs⟩ := ihvs hc₁ hr'
      exact ⟨w, s, .later m hrun hw, hwk, hs⟩
  | known n hk hc hf _ ihvs =>
    obtain ⟨m, hrun⟩ := (Builds.known n hk hc hf (.nil _)).exists_run
    obtain ⟨w, s, hw, hwk, hs⟩ := ihvs hr hr'
    exact ⟨w, s, .later m hrun hw, hwk, hs⟩
  | @defined u us _ _ _ _ t key' r r₁ _ n m hk hc hp hxs ht hf _ ihxs ihvs =>
    by_cases hkey : key' = key
    · subst hkey
      exact ⟨u, r, .here, hk, hc⟩
    · have hpending : (r.insert key' .pending).contains key = false := by
        rw [Registry.contains_insert, decide_eq_false hkey, hr]
        rfl
      cases hc₁ : r₁.contains key with
      | true =>
        obtain ⟨w, s, hw, hwk, hs⟩ := ihxs hpending hc₁
        exact ⟨w, s, .ofDefinition n hk hc hp hw, hwk, hs⟩
      | false =>
        have hready : (r₁.insert key' (.ready t)).contains key = false := by
          rw [Registry.contains_insert, decide_eq_false hkey, hc₁]
          rfl
        obtain ⟨m', hrun⟩ := (Builds.defined n m hk hc hp hxs ht hf (.nil _)).exists_run
        obtain ⟨w, s, hw, hwk, hs⟩ := ihvs hready hr'
        exact ⟨w, s, .later m' hrun hw, hwk, hs⟩

end

/-! ## Definitions -/

section

variable {r r₁ : Registry} {u : Use N} {us : List (Use N)} {fs : List Object} {t : Object}

theorem yields_dispatch {n : Nat} {d : Descriptor N} {as : Annotations}
    (h : Generator.dispatch {} g n d as r = .ok t r₁) :
    Yields (fun n => Generator.dispatch {} g n d as) t := by
  refine ⟨⟨n, r, r₁, h⟩, fun m r' t' r₂ h' => ?_⟩
  have hsame := (Generator.oblivious_default.sameResult g m n).2 d as
  exact (hsame r' r trivial t' r₂ t r₁ h' h).1

theorem yields_build {n : Nat} {d : Descriptor N} {as : Annotations}
    (h : Generator.build {} g n d as r = .ok t r₁) :
    Yields (fun n => Generator.build {} g n d as) t := by
  refine ⟨⟨n, r, r₁, h⟩, fun m r' t' r₂ h' => ?_⟩
  have hsame := (Generator.oblivious_default.sameResult g m n).1 d as
  exact (hsame r' r trivial t' r₂ t r₁ h' h).1

/-- What is put together for a key is the definition of the type that asks for it. -/
theorem ownDefinition_of_builds {n : Nat} (hp : u.definition.parts g n = .ok us)
    (hb : Builds g r us fs r₁) (ht : u.definition.finish us fs = .ok t) :
    OwnDefinition g u.descriptor t := by
  obtain ⟨F, hF⟩ := build_of_builds hb
  have hrun : u.definition.inPlace g (n + F + 1) r = .ok t r₁ :=
    inPlace_run hp hF ht (Nat.le_refl _)
  cases hw : u.descriptor.isWrapper with
  | false =>
    rw [Use.inPlace_definition g _ hw] at hrun
    exact .type hw (yields_dispatch hrun)
  | true =>
    have hkind : u.definition.descriptor.kind = .wrapper := by
      rw [← Descriptor.isWrapper_iff, Use.isWrapper_definition, hw]
    obtain ⟨_, hes, _⟩ := (Parts.of_parts hp).of_wrapper hkind
    obtain ⟨value, hvalue, _⟩ := Descriptor.elements_eq_singleton u.outline_definition hes
    rw [Use.inPlace_definition_of_wrapped g _ hw (Use.wrapped_eq_ok.mpr hvalue)] at hrun
    exact .wrapper value hw hvalue (yields_build hrun)

/-- A type has the same definition for its nullable and its other uses. -/
theorem OwnDefinition.of_nonNullable_eq {d d' : Descriptor N}
    (h : OwnDefinition g d t) (hd : d.nonNullable = d'.nonNullable) : OwnDefinition g d' t := by
  have hwrapper : d.isWrapper = d'.isWrapper := by
    have hkind := congrArg Descriptor.kind hd
    rw [Descriptor.kind_eq_of_outline d.outline_nonNullable,
      Descriptor.kind_eq_of_outline d'.outline_nonNullable] at hkind
    unfold Descriptor.isWrapper
    rw [hkind]
  have has : d.annotations = d'.annotations := by
    rw [← Use.annotations_nonNullable d, hd, Use.annotations_nonNullable]
  have hes : d.elements = d'.elements := by
    rw [← Use.elements_nonNullable d, hd, Use.elements_nonNullable]
  cases h with
  | type hw hy =>
    rw [hd, has] at hy
    exact .type (hwrapper ▸ hw) hy
  | wrapper value hw hvalue hy =>
    rw [has] at hy
    exact .wrapper value (hwrapper ▸ hw) (hes ▸ hvalue) hy

theorem stringKeyed_of_parts {n : Nat} (hp : u.parts g n = .ok us)
    (hk : u.descriptor.kind = .map) : u.descriptor.StringKeyed g := by
  obtain ⟨hparts, hencodable⟩ := parts_eq_ok_iff.mp hp
  obtain ⟨key, value, hes, _⟩ := hparts.of_map hk
  obtain ⟨k, hinner, hstring⟩ := hencodable.key hk key value hes
  exact ⟨key, value, hes, hstring ▸ innerKind_of_innermost hinner⟩

/-- A map that has a definition has strings for keys. -/
theorem OwnDefinition.stringKeyed {d : Descriptor N} (h : OwnDefinition g d t)
    (hk : d.kind = .map) : d.StringKeyed g := by
  have hw : d.isWrapper = false := Descriptor.isWrapper_eq_false (by rw [hk]; simp)
  cases h with
  | wrapper _ hw' _ _ => rw [hw] at hw'; cases hw'
  | type _ hy =>
    obtain ⟨n, r, r', hrun⟩ := hy.succeeds
    let v : Use N := ⟨d, []⟩
    have hplace : v.definition.inPlace g n r = .ok t r' := by
      rw [Use.inPlace_definition g n hw]
      exact hrun
    obtain ⟨m, _, us, _, hp, _, _⟩ := inPlace_eq_ok hplace
    have hkind : v.definition.descriptor.kind = .map :=
      (Descriptor.kind_eq_of_outline v.outline_definition).trans hk
    have hkeyed := stringKeyed_of_parts hp hkind
    have hdef : v.definition.descriptor = d.nonNullable := by
      unfold Use.definition
      rw [hw]
      rfl
    obtain ⟨key, value, hes, hinner⟩ := hkeyed
    rw [hdef, Use.elements_nonNullable] at hes
    exact ⟨key, value, hes, hinner⟩

end

/-! ## Whole calls -/

section

variable {r : Registry} {root u w : Use N} {f : Object} {key : String}

/-- In a whole call, the use that comes first has its definition under the key. -/
theorem First.get? (h : First g root key w) (hb : Builds g {} [root] [f] r) :
    ∃ t, r.get? key = some t ∧ OwnDefinition g w.descriptor t := by
  obtain ⟨hk, s, hmet, hs⟩ := h
  obtain ⟨_, s', hw, hgrows⟩ := hmet.builds hb
  cases hw with
  | inPlace n hk' _ _ _ _ => rw [hk] at hk'; cases hk'
  | known n hk' hc' _ _ =>
    rw [hk] at hk'
    cases hk'
    rw [hs] at hc'
    cases hc'
  | @defined _ us _ _ _ _ t _ _ r₁ _ n m hk' _ hp hus ht _ hnil =>
    rw [hk] at hk'
    cases hk'
    cases hnil
    have hget : (r₁.insert key (.ready t)).get? key = some t := by
      rw [Registry.get?_insert_ready, if_pos rfl]
    exact ⟨t, hgrows.get? key t hget, ownDefinition_of_builds hp hus ht⟩

/-- A key that is asked for in a whole call is new to somebody. -/
theorem exists_first {s : Registry} (hu : MetAt g {} [root] u s) (hk : u.key? = some key)
    (hb : Builds g {} [root] [f] r) : ∃ w, First g root key w := by
  obtain ⟨_, s', hub, hgrows⟩ := hu.builds hb
  have hcontains : s'.contains key = true := by
    obtain ⟨_, hS⟩ := exists_visits hub
    exact hS.registered u (hS.start List.mem_cons_self) key hk
  obtain ⟨w, s₀, hw, hwk, hs₀⟩ := exists_metAt hb rfl (hgrows.contains key hcontains)
  exact ⟨w, hwk, s₀, hw, hs₀⟩

theorem definition?_attachTo_of_get? {t : Object} (hr : r.entries.Ordered)
    (ht : r.get? key = some t) : definition? (r.attachTo f) key = some t := by
  have hne : r.isEmpty = false := by
    cases he : r.isEmpty with
    | false => rfl
    | true => rw [Registry.get?_of_isEmpty he] at ht; cases ht
  rw [definition?_attachTo_of_nonempty hr hne, ht]

end

/-- Whatever a call comes to, a pointer in its document leads to the definition of the type that
asked for its key first, which is the own definition of every use of that type, nullable or not.
A map that is built in place, or whose type is the first to ask for its key, has strings for
keys. -/
theorem definition_of_first {n : Nat} {d : Descriptor N} {seed : Annotations} {doc : Object}
    (h : Generator.schemaOf {} g n d seed = .ok doc) {u : Use N} {s : Registry}
    (hu : MetAt g {} [⟨d, seed⟩] u s) :
    (∀ key, u.key? = some key → (∃ w, First g ⟨d, seed⟩ key w) ∧
      ∃ t, definition? doc key = some t ∧ ∀ w, First g ⟨d, seed⟩ key w →
        OwnDefinition g w.descriptor t ∧
        (w.descriptor.nonNullable = u.descriptor.nonNullable → OwnDefinition g u.descriptor t)) ∧
    (u.descriptor.kind = .map → (∀ key, u.key? = some key → ∃ w, First g ⟨d, seed⟩ key w ∧
      w.descriptor.nonNullable = u.descriptor.nonNullable) → u.descriptor.StringKeyed g) := by
  obtain ⟨f, r, hb, rfl⟩ := builds_of_schemaOf h
  have hordered : r.entries.Ordered := hb.ordered Table.ordered_empty
  have hkeyed : ∀ key, u.key? = some key → (∃ w, First g ⟨d, seed⟩ key w) ∧
      ∃ t, definition? (r.attachTo f) key = some t ∧ ∀ w, First g ⟨d, seed⟩ key w →
        OwnDefinition g w.descriptor t ∧ (w.descriptor.nonNullable = u.descriptor.nonNullable →
          OwnDefinition g u.descriptor t) := by
    intro key hk
    obtain ⟨w, hw⟩ := exists_first hu hk hb
    obtain ⟨t, ht, _⟩ := hw.get? hb
    refine ⟨⟨w, hw⟩, t, definition?_attachTo_of_get? hordered ht, fun w' hw' => ?_⟩
    obtain ⟨t', ht', hown⟩ := hw'.get? hb
    obtain rfl := Option.some.inj (ht.symm.trans ht')
    exact ⟨hown, hown.of_nonNullable_eq⟩
  refine ⟨hkeyed, fun hmap hfirst => ?_⟩
  cases hk : u.key? with
  | some key =>
    obtain ⟨w, hw, hsame⟩ := hfirst key hk
    obtain ⟨_, t, _, hown⟩ := hkeyed key hk
    exact ((hown w hw).2 hsame).stringKeyed hmap
  | none =>
    obtain ⟨_, _, hub, _⟩ := hu.builds hb
    cases hub with
    | inPlace m _ hp _ _ _ => exact stringKeyed_of_parts hp hmap
    | known m hk' _ _ _ => rw [hk] at hk'; cases hk'
    | defined m m' hk' _ _ _ _ _ _ => rw [hk] at hk'; cases hk'

/-- The link inside a link is met while the definition is built, and points to it. -/
theorem definition_of_link : ∃ doc t, Generator.schemaOf {} linkGraph 3 link [] = .ok doc ∧
    MetAt linkGraph {} [⟨link, []⟩] ⟨link, []⟩ (({} : Registry).insert "Link" .pending) ∧
    definition? doc "Link" = some t ∧ OwnDefinition linkGraph link t := by
  obtain ⟨doc, hdoc⟩ : ∃ doc, Generator.schemaOf {} linkGraph 3 link [] = .ok doc := ⟨_, rfl⟩
  have hinside : MetAt linkGraph {} [⟨link, []⟩] ⟨link, []⟩
      (({} : Registry).insert "Link" .pending) := .ofDefinition 0 rfl rfl rfl .here
  have hfirst : First linkGraph ⟨link, []⟩ "Link" ⟨link, []⟩ := ⟨rfl, {}, .here, rfl⟩
  obtain ⟨_, t, ht, hown⟩ := (definition_of_first hdoc hinside).1 "Link" rfl
  exact ⟨doc, t, hdoc, hinside, ht, (hown _ hfirst).1⟩

/-- A record with two properties under one key, a text and a map from integers. -/
def clashGraph : Graph (Fin 4)
  | 0 => { serialName := "Clash", kind := .record,
           elements := [{ name := "a", target := 1, annotations := [.ref "K"] },
                        { name := "b", target := 2, annotations := [.ref "K"] }] }
  | 1 => .ofKind "String" (.primitive .string)
  | 2 => .map "M" 3 1
  | 3 => .ofKind "i32" (.primitive .int)

theorem not_stringKeyed_clash : ¬ (clashGraph 2).StringKeyed clashGraph := by
  rintro ⟨key, value, hes, hinner⟩
  cases hes
  exact nomatch hinner.eq_kind (by decide)

/-- A pointer may lead to the definition of another type, and to one even where its own type has
none: the map of the clash is referred to and never looked at. -/
theorem definition_not_own : ¬ ∀ (N : Type) (g : Graph N) (n : Nat) (d : Descriptor N)
    (seed : Annotations) (doc : Object), Generator.schemaOf {} g n d seed = .ok doc →
    ∀ u s, MetAt g {} [⟨d, seed⟩] u s → ∀ key, u.key? = some key →
      ∃ t, definition? doc key = some t ∧ OwnDefinition g u.descriptor t := by
  intro h
  obtain ⟨doc, hdoc⟩ : ∃ doc, Generator.schemaOf {} clashGraph 4 (clashGraph 0) [] = .ok doc :=
    ⟨_, rfl⟩
  obtain ⟨f, r, hrun⟩ : ∃ f r,
      (⟨clashGraph 1, [.ref "K"]⟩ : Use (Fin 4)).build clashGraph 3 {} = .ok f r := ⟨_, _, rfl⟩
  have hmet : MetAt clashGraph {} [⟨clashGraph 0, []⟩] ⟨clashGraph 2, [.ref "K"]⟩ r :=
    .part 0 rfl rfl (.later 3 hrun .here)
  obtain ⟨t, _, hown⟩ := h _ clashGraph 4 (clashGraph 0) [] doc hdoc _ r hmet "K" rfl
  exact not_stringKeyed_clash (hown.stringKeyed rfl)

end TypeSchema
