/-
  What a pointer accepts, against what is built in place of it.

  A schema that shares definitions and the schema of the same graph without requests have the same
  shapes, so they can differ in constraints only. At a pointer the constraints of the place and
  those of the type both hold; in place, one of them gives way to the other where both have a
  value. Sharing definitions therefore lets fewer values pass, and the same ones if the
  annotations at the places where definitions are used narrow those of the types
  (`validates_schemaOf`).
-/
import TypeSchema.Proofs.Narrowing
import TypeSchema.Proofs.Sharing
import TypeSchema.Proofs.Similarity

namespace TypeSchema

variable {N : Type} {g : Graph N}

/-! ## Shapes -/

section

variable {lang : Dialect} {defs defs' : String → Option Object} {R : Json → Json → Prop}
  {v : Json} {us : List (Use N)} {fs : List Object}

/-- A shape lets more pass if its parts do. -/
theorem allows_shape_mono {u : Use N} {fs' : List Object} (hp : Parts g u us)
    (hlen : us.length = fs.length) (hk : u.descriptor.kind ≠ .wrapper)
    (hfs : List.Forall₂ (fun f f' => ∀ v, Validates lang defs (.object f) v →
      Validates lang defs' (.object f') v) fs fs')
    (h : Allows defs (Validates lang defs) (u.descriptor.shape us fs) v) :
    Allows defs' (Validates lang defs') (u.descriptor.shape us fs') v := by
  cases hp with
  | wrapper _ hw _ => exact absurd hw hk
  | primitive p hk => exact (allows_primitive hk).mpr ((allows_primitive hk).mp h)
  | enumeration hk => exact (allows_enumeration hk).mpr ((allows_enumeration hk).mp h)
  | marker hk => exact allows_marker hk
  | record hk =>
    rw [allows_record_members hk] at h ⊢
    refine h.imp_left fun ⟨ms, hv, hreq, hps⟩ => ⟨ms, hv, hreq, fun k t w ht hw => ?_⟩
    have hentries : List.Forall₂ (fun e e' => e.1 = e'.1 ∧
        ∀ v, Validates lang defs e.2 v → Validates lang defs' e'.2 v)
        (u.descriptor.properties fs) (u.descriptor.properties fs') :=
      forall₂_zipWith (R := Eq) (fun _ _ _ _ he hf => ⟨congrArg Element.name he, hf⟩)
        (List.forall₂_refl _) hfs
    have hrel := Table.rel_get?_ofList
      (R := fun t t' => ∀ v, Validates lang defs t v → Validates lang defs' t' v) hentries k
    rw [ht] at hrel
    generalize hs : (Table.ofList (u.descriptor.properties fs)).get? k = s at hrel
    cases hrel with
    | some hr => exact hr w (hps k _ w hs hw)
  | list item hk hes =>
    obtain ⟨f, rfl⟩ := List.length_eq_one_iff.mp hlen.symm
    obtain ⟨f', rfl⟩ := List.length_eq_one_iff.mp hfs.length_eq.symm
    obtain ⟨hf, _⟩ := List.forall₂_cons.mp hfs
    rw [allows_list hk] at h ⊢
    exact h.imp_left fun ⟨ws, hv, hws⟩ => ⟨ws, hv, fun w hw => hf w (hws w hw)⟩
  | map key value hk hes =>
    obtain ⟨f, rfl⟩ := List.length_eq_one_iff.mp hlen.symm
    obtain ⟨f', rfl⟩ := List.length_eq_one_iff.mp hfs.length_eq.symm
    obtain ⟨hf, _⟩ := List.forall₂_cons.mp hfs
    rw [allows_map hk] at h ⊢
    exact h.imp_left fun ⟨ms, hv, hms⟩ => ⟨ms, hv, fun k w hw => hf w (hms k w hw)⟩
  | polymorphic k hk =>
    generalize hus : u.descriptor.elements.map (·.variant g) = us at h ⊢
    have hzip : List.Forall₂ (fun (p p' : Use N × Object) => p.1 = p'.1 ∧
        ∀ v, Validates lang defs (.object p.2) v → Validates lang defs' (.object p'.2) v)
        (us.zip fs) (us.zip fs') :=
      forall₂_zipWith (R := Eq) (fun _ _ _ _ hu hf => ⟨hu, hf⟩) (List.forall₂_refl us) hfs
    rw [allows_polymorphic hk, validates_nullFragment] at h ⊢
    refine h.imp_left fun ⟨p, hp, hv⟩ => ?_
    obtain ⟨p', hp', heq, hf⟩ := exists_of_mem_forall₂ hzip hp
    rw [validates_taggedVariant] at hv
    refine ⟨p', hp', validates_taggedVariant.mpr ?_⟩
    rw [← heq]
    exact hv.imp_left (hf v)

/-- A type that is nullable besides lets `null` pass besides. -/
theorem Relaxes.allows_shape {b : Bool} {u : Use N} {d : Descriptor N}
    (h : Relaxes b u.descriptor d) (hp : Parts g u us) (hlen : us.length = fs.length)
    (hk : u.descriptor.kind ≠ .wrapper) (hnull : ∀ v, R (.object nullFragment) v ↔ v = .null) :
    Allows defs R (d.shape us fs) v ↔
      Allows defs R (u.descriptor.shape us fs) v ∨ b = true ∧ v = .null := by
  have hor : ∀ P : Prop, P ∨ d.nullable = true ∧ v = .null ↔
      (P ∨ u.descriptor.nullable = true ∧ v = .null) ∨ b = true ∧ v = .null := by
    intro P
    rw [h.nullable, Bool.or_eq_true, or_and_right, or_assoc]
  cases hp with
  | wrapper _ hw _ => exact absurd hw hk
  | primitive p hk => rw [allows_primitive (h.kind.trans hk), allows_primitive hk, hor]
  | enumeration hk =>
    rw [allows_enumeration (h.kind.trans hk), allows_enumeration hk, h.elements, hor]
  | marker hk =>
    exact iff_of_true (allows_marker (h.kind.trans hk)) (Or.inl (allows_marker hk))
  | record hk =>
    rw [allows_record_members (h.kind.trans hk), allows_record_members hk, hor]
    unfold Descriptor.properties
    rw [h.elements]
  | list item hk hes =>
    obtain ⟨f, rfl⟩ := List.length_eq_one_iff.mp hlen.symm
    rw [allows_list (h.kind.trans hk), allows_list hk, hor]
  | map key value hk hes =>
    obtain ⟨f, rfl⟩ := List.length_eq_one_iff.mp hlen.symm
    rw [allows_map (h.kind.trans hk), allows_map hk, hor]
  | polymorphic k hk =>
    rw [allows_polymorphic (h.kind.trans hk), allows_polymorphic hk]
    simp only [hnull]
    rw [hor]

end

/-! ## Further annotations in place -/

/-- The fragment accepts the values of `S` that the annotations let pass. -/
def Splits (lang : Dialect) (defs : String → Option Object) (f : Object) (S : Json → Prop)
    (as : Annotations) (ks : List SiteKeyword) : Prop :=
  ∀ v, Validates lang defs (.object f) v ↔ S v ∧ as.Satisfied lang ks v

/-- Built in place under `bs`, and with `as` in front of them besides, or nullable besides if `b`
says so, a use has the same values but for its annotations and `null`. -/
def SplitsWith (b : Bool) (as bs : Annotations) (ks : List SiteKeyword) (f f' : Object) : Prop :=
  ∀ lang defs, ∃ S, Splits lang defs f S bs ks ∧
    Splits lang defs f' (fun v => S v ∨ b = true ∧ v = .null) (as ++ bs) ks

section

variable {b : Bool} {as : Annotations} {us : List (Use N)} {fs : List Object}

/-- Requests constrain nothing. -/
theorem SplitsWith.of_withoutRefs {bs : Annotations} {ks : List SiteKeyword} {f f' : Object}
    (h : SplitsWith b as.withoutRefs bs.withoutRefs ks f f') : SplitsWith b as bs ks f f' := by
  intro lang defs
  obtain ⟨S, hS, hS'⟩ := h lang defs
  refine ⟨S, fun v => ?_, fun v => ?_⟩
  · rw [hS v, Annotations.satisfied_withoutRefs]
  · rw [hS' v, ← Annotations.withoutRefs_append, Annotations.satisfied_withoutRefs]

theorem Relaxes.exists_finish {u : Use N} {d : Descriptor N} {f : Object}
    (h : Relaxes b u.descriptor d) (hp : Parts g u us) (hlen : us.length = fs.length)
    (hk : u.descriptor.kind ≠ .wrapper) (has : as.check u.descriptor.kind.constraints = .ok ())
    (hf : u.finish us fs = .ok f) :
    ∃ f', Use.finish ⟨d, as ++ u.inherited⟩ us fs = .ok f' ∧
      SplitsWith b as (u.inherited ++ u.descriptor.annotations)
        u.descriptor.kind.constraints f f' := by
  have hkd : d.kind ≠ .wrapper := by
    rw [h.kind]
    exact hk
  obtain ⟨f', hf'⟩ : ∃ f', Use.finish ⟨d, as ++ u.inherited⟩ us fs = .ok f' := by
    rw [Use.finish_eq_descriptor hk, Descriptor.finish_eq_ok] at hf
    rw [Use.finish_eq_descriptor hkd]
    simp only [Descriptor.finish_eq_ok, h.kind, h.annotations, List.append_assoc]
    exact ⟨_, Annotations.check_append_of_check has hf.1, rfl⟩
  refine ⟨f', hf', fun lang defs => ⟨_, fun v => validates_finish hk hf, fun v => ?_⟩⟩
  rw [validates_finish hkd hf',
    h.allows_shape hp hlen hk fun v => validates_nullFragment, h.kind, h.annotations,
    List.append_assoc]

/-- Building a use in place under more annotations than it has, or nullable besides. -/
theorem Inline.exists_splitsWith {u : Use N} {d : Descriptor N} {own : Annotations} {k : Kind}
    {f : Object} (h : Inline g [u] [f]) (hd : Relaxes b u.descriptor d)
    (hown : Inside g u.descriptor own k) (has : as.check k.constraints = .ok ()) :
    ∃ f', Inline g [⟨d, as ++ u.inherited⟩] [f'] ∧
      SplitsWith b as (u.inherited ++ own) k.constraints f f' := by
  refine induct_inner (P := fun u f => ∀ {d}, Relaxes b u.descriptor d →
    ∀ {own}, Inside g u.descriptor own k → ∃ f', Inline g [⟨d, as ++ u.inherited⟩] [f'] ∧
      SplitsWith b as (u.inherited ++ own) k.constraints f f') ?_ ?_ h hd hown
  · intro u us fs f n hw hp hus hf d hd own hown
    cases hown with
    | wrapper hk _ _ => exact absurd hk hw
    | base hk =>
      obtain ⟨f', hf', hsplits⟩ := hd.exists_finish (Parts.of_parts hp) hus.length_eq hw has hf
      exact ⟨f', .cons n (hd.parts hw _ hp) hus hf' .nil, hsplits⟩
  · intro u value f hw hes ih d hd own hown
    cases hown with
    | base hk => exact absurd hw hk
    | @wrapper _ value' own' _ _ hes' hinside =>
      obtain rfl : value = value' := List.singleton_inj.mp (hes.symm.trans hes')
      obtain ⟨f', hf', hsplits⟩ := ih (hd.passNullable _) (hinside.passNullable _)
      -- the value inside has the annotations of its wrapper on top of its own
      have hann : (u.inner g value).inherited ++ own' =
          u.inherited ++ (u.descriptor.annotations ++ value.annotations ++ own') := by
        unfold Use.inner
        simp only [List.append_assoc]
      rw [hann] at hsplits
      exact ⟨f', .of_inner hd hw hes hf', hsplits⟩

end

/-! ## One use -/

/-- All that `f` accepts is accepted by `f'`, and nothing else where `P` holds. -/
def Loosens (defs : String → Option Object) (P : Dialect → Prop) (f f' : Object) : Prop :=
  ∀ lang defs' v,
    (Validates lang defs (.object f) v → Validates lang defs' (.object f') v) ∧
      (P lang → Validates lang defs' (.object f') v → Validates lang defs (.object f) v)

section

variable {defs : String → Option Object} {P : Dialect → Prop}

/-- What is put together in the same way has the same constraints of its own. -/
theorem congruent_loosens : Congruent g (Loosens defs P) := by
  intro u us fs fs' f hp hlen hf hall
  by_cases hw : u.descriptor.kind = .wrapper
  · obtain ⟨value, hes, rfl⟩ := hp.of_wrapper hw
    obtain ⟨f₀, rfl⟩ := List.length_eq_one_iff.mp hlen.symm
    obtain ⟨f', rfl⟩ := List.length_eq_one_iff.mp hall.length_eq.symm
    obtain rfl := Use.finish_wrapper hw hf
    exact ⟨f', Use.finish_of_wrapper hw _ _, (List.forall₂_cons.mp hall).1⟩
  · obtain ⟨f', hf'⟩ : ∃ f', u.finish us fs' = .ok f' := by
      rw [Use.finish_eq_descriptor hw, Descriptor.finish_eq_ok] at hf
      rw [Use.finish_eq_descriptor hw]
      simp only [Descriptor.finish_eq_ok]
      exact ⟨_, hf.1, rfl⟩
    refine ⟨f', hf', fun lang defs' v => ?_⟩
    rw [validates_finish hw hf, validates_finish hw hf']
    refine ⟨And.imp_left fun h => ?_, fun hlang => And.imp_left fun h => ?_⟩
    · exact allows_shape_mono hp hlen hw (hall.imp fun f f' hq w => (hq lang defs' w).1) h
    · exact allows_shape_mono hp (hlen.trans hall.length_eq) hw
        (hall.flip.imp fun f' f hq w => (hq lang defs' w).2 hlang) h

/-- In place of a pointer the use has what its definition has, under the annotations of the place
besides, and `null` where the use is nullable. -/
theorem exists_splitsWith_of_pointer {u : Use N} {n : Nat} {key : String} {f t' : Object}
    {target : Descriptor N} (htarget : u.target g n = .ok target)
    (hf : u.pointer g n key = .ok f)
    (ht' : Inline g.withoutRefs [u.definition.withoutRefs] [t']) :
    ∃ f' own, Inline g.withoutRefs [u.withoutRefs] [f'] ∧
      Inside g u.descriptor own target.kind ∧
        SplitsWith u.descriptor.nullable u.inherited own target.kind.constraints t' f' := by
  obtain ⟨own, hown⟩ := Inside.exists_of_innerKind (innerKind_of_target htarget)
  have hrelaxes := relaxes_nonNullable u.descriptor
  have hbare : Inside g.withoutRefs u.descriptor.nonNullable.withoutRefs own.withoutRefs
      target.kind :=
    hown.withoutRefs.congr hrelaxes.kind.symm hrelaxes.annotations.symm hrelaxes.elements.symm
  have hcheck : u.inherited.withoutRefs.check target.kind.constraints = .ok () := by
    rw [Annotations.check_withoutRefs]
    exact Use.check_of_pointer htarget hf
  rw [Use.withoutRefs_definition] at ht'
  obtain ⟨f', hf', hsplits⟩ := ht'.exists_splitsWith hrelaxes hbare hcheck
  rw [List.append_nil] at hf'
  exact ⟨f', own, hf', hown, hsplits.of_withoutRefs⟩

/-- A pointer is loosened if the definition it leads to is. -/
theorem exists_loosens_of_pointer {u : Use N} {n : Nat} {key : String} {f t t' : Object}
    (hf : u.pointer g n key = .ok f) (ht : defs key = some t)
    (ht' : Inline g.withoutRefs [u.definition.withoutRefs] [t']) (hq : Loosens defs P t t')
    (hP : ∀ lang, P lang → ∀ own k, Inside g u.descriptor own k →
      u.inherited.Narrows lang own k.constraints) :
    ∃ f', Inline g.withoutRefs [u.withoutRefs] [f'] ∧ Loosens defs P f f' := by
  obtain ⟨target, htarget, _⟩ := Use.pointer_eq_ok hf
  obtain ⟨f', own, hf', hown, hsplits⟩ := exists_splitsWith_of_pointer htarget hf ht'
  refine ⟨f', hf', fun lang defs' v => ?_⟩
  obtain ⟨S, hS, hS'⟩ := hsplits lang defs'
  rw [validates_pointer htarget hf, hS' v, ht]
  refine ⟨?_, fun hlang => ?_⟩
  · rintro ⟨hnull | ⟨_, ⟨rfl⟩, hv⟩, has⟩
    · obtain ⟨hnullable, rfl⟩ := hnull
      exact ⟨Or.inr ⟨hnullable, rfl⟩, Annotations.satisfied_null _ _⟩
    · obtain ⟨hs, hbs⟩ := (hS v).mp ((hq lang defs' v).1 hv)
      exact ⟨Or.inl hs, has.append hbs⟩
  · rintro ⟨hs, hboth⟩
    obtain ⟨has, hbs⟩ := (hP lang hlang own target.kind hown).satisfied hboth
    refine ⟨hs.symm.imp_right fun hs => ⟨t, rfl, ?_⟩, has⟩
    exact (hq lang defs' v).2 hlang ((hS v).mpr ⟨hs, hbs⟩)

end

/-! ## Documents -/

/-- Wherever a definition is used, the annotations of the place narrow those of the type. -/
def NarrowsTypes (g : Graph N) (root : Use N) (lang : Dialect) : Prop :=
  ∀ u key own k, Meets g root u → u.key? = some key → Inside g u.descriptor own k →
    u.inherited.Narrows lang own k.constraints

/-- Taking all requests out of a graph loosens its schema, and leaves it as strict as it is if the
annotations beside pointers narrow those of the types. -/
theorem validates_schemaOf {n : Nat} {d : Descriptor N} {seed : Annotations} {doc : Object}
    (hacyclic : ∀ x, Reaches g d x → ¬ Relation.TransGen (Child g) x x)
    (hone : OneTypePerKey g ⟨d, seed⟩) (h : Generator.schemaOf {} g n d seed = .ok doc) :
    ∃ f, (∃ fuel, ∀ m ≥ fuel,
      Generator.schemaOf {} g.withoutRefs m d.withoutRefs seed.withoutRefs = .ok f) ∧
        Loosens (definition? doc) (NarrowsTypes g ⟨d, seed⟩) doc f := by
  obtain ⟨f, r, hb, rfl⟩ := builds_of_schemaOf h
  obtain ⟨S, hS⟩ := exists_visits hb
  have hroot : f.get? "$defs" = none :=
    (hb.resolves f (List.mem_singleton_self f) f .refl).1
  have hdefs := definition?_attachTo (hb.ordered Table.ordered_empty) hroot
  have hall : HasInline g (Loosens (definition? (r.attachTo f)) (NarrowsTypes g ⟨d, seed⟩))
      ⟨d, seed⟩ := by
    refine hasInline_of_meets hacyclic hone hS congruent_loosens ?_ .refl
    intro u n key f t t' hu hk hf ht ht' hq
    exact exists_loosens_of_pointer hf ((hdefs key).trans ht) ht' hq fun lang hlang own k hown =>
      hlang u key own k hu hk hown
  obtain ⟨f', hf', hq⟩ := hall f hb.fragments
  have hbuilds := hf'.builds (by simpa using Use.refFree_withoutRefs ⟨d, seed⟩) {}
  refine ⟨f', schemaOf_of_builds hbuilds, fun lang defs' v => ?_⟩
  rw [validates_attachTo]
  exact hq lang defs' v

/-! ## A bound of the type and one of the place -/

/-- An age, of at least ten years. -/
def ageType : Descriptor Unit where
  serialName := "Age"
  kind := .primitive .int
  annotations := [.bound .minimum 10]

def ageGraph : Graph Unit := fun _ => ageType

def memberAge (least : Int64) : Element Unit where
  name := "age"
  target := ()
  annotations := [.ref "Age", .bound .minimum least]

/-- A member, with a least age of its own. -/
def member (least : Int64) : Use Unit where
  descriptor := { serialName := "Member", kind := .record, elements := [memberAge least] }

theorem eq_of_meets_member {least : Int64} {u : Use Unit} (h : Meets ageGraph (member least) u) :
    u = member least ∨ u = (memberAge least).use ageGraph := by
  induction h with
  | refl => exact Or.inl rfl
  | tail _ hstep ih =>
    obtain ⟨n, us, hp, hv⟩ := hstep
    rcases ih with rfl | rfl
    · cases hp
      exact Or.inr (List.mem_singleton.mp hv)
    · cases hp
      cases hv

theorem oneTypePerKey_member (least : Int64) : OneTypePerKey ageGraph (member least) := by
  have hage : ∀ u key, Meets ageGraph (member least) u → u.key? = some key →
      u.descriptor.nonNullable = ageType := by
    intro u key hu hk
    rcases eq_of_meets_member hu with rfl | rfl
    · cases hk
    · rfl
  intro u v key hu hv hku hkv
  rw [hage u key hu hku, hage v key hv hkv]

theorem not_transGen_child_age (x : Descriptor Unit) :
    ¬ Relation.TransGen (Child ageGraph) x x :=
  not_transGen_child_of_leaves (fun _ => rfl) x

theorem allows_minimum_int {lang : Dialect} {i j : Int} :
    (SiteKeyword.bound .minimum).Allows lang (.int i) (.int j) ↔ i ≤ j :=
  Int.mul_le_mul_right (Int.pow_pos (by decide))

theorem SiteKeyword.Allows.minimum_of_le {lang : Dialect} {i j : Int} {v : Json} (hji : j ≤ i)
    (h : (SiteKeyword.bound .minimum).Allows lang (.int i) v) :
    (SiteKeyword.bound .minimum).Allows lang (.int j) v := by
  cases v with
  | number n =>
    have hscaled : (Number.int j).scaled ≤ (Number.int i).scaled :=
      Int.mul_le_mul_of_nonneg_right hji (Int.pow_nonneg (by decide))
    exact hscaled.trans h
  | _ => trivial

/-- A member who has to be older than the type says narrows the type. -/
theorem narrowsTypes_member {least : Int64} (hleast : 10 ≤ least.toInt) (lang : Dialect) :
    NarrowsTypes ageGraph (member least) lang := by
  intro u key own k hu hk hown
  rcases eq_of_meets_member hu with rfl | rfl
  · cases hk
  · refine .of_doubleFree (fun t x hmem => ?_) fun k' hk' a b ha hb v hv => ?_
    · simp [Element.use, memberAge] at hmem
    · cases hown with
      | wrapper hw _ _ => cases hw
      | base _ =>
        cases k' with
        | text t => cases t <;> cases hb
        | length t => cases t <;> cases hb
        | bound t =>
          cases t
          case minimum =>
            cases ha
            cases hb
            exact hv.minimum_of_le hleast
          all_goals cases hb

theorem validates_member :
    ∃ doc f, Generator.schemaOf {} ageGraph 4 (member 18).descriptor [] = .ok doc ∧
      (∃ fuel, ∀ m ≥ fuel, Generator.schemaOf {} ageGraph.withoutRefs m
        (member 18).descriptor.withoutRefs [] = .ok f) ∧
        ∀ lang v, Validates lang (definition? doc) (.object doc) v ↔
          Validates lang (definition? f) (.object f) v := by
  obtain ⟨doc, hdoc⟩ : ∃ doc, Generator.schemaOf {} ageGraph 4 (member 18).descriptor [] =
      .ok doc := ⟨_, rfl⟩
  obtain ⟨f, hf, hloosens⟩ := validates_schemaOf (fun x _ => not_transGen_child_age x)
    (oneTypePerKey_member 18) hdoc
  refine ⟨doc, f, hdoc, hf, fun lang v => ?_⟩
  obtain ⟨hforth, hback⟩ := hloosens lang (definition? f) v
  exact ⟨hforth, hback (narrowsTypes_member (by decide) lang)⟩

def ageOf (years : Int) : Json := .object (Table.ofList [("age", .int years)])

/-- The schema of a member of three years or more, with the definition of ages. -/
def memberDocument : Object := Table.ofList [
  ("type", .string "object"),
  ("properties", Json.ofEntries [("age", Json.ofEntries [
    ("$ref", .string "#/$defs/Age"), ("minimum", .int 3)])]),
  ("required", Json.strings ["age"]),
  ("$defs", Json.ofEntries [("Age", Json.ofEntries [
    ("type", .string "integer"), ("minimum", .int 10)])])]

/-- The same schema with the age in place. -/
def memberInPlace : Object := Table.ofList [
  ("type", .string "object"),
  ("properties", Json.ofEntries [("age", Json.ofEntries [
    ("type", .string "integer"), ("minimum", .int 3)])]),
  ("required", Json.strings ["age"])]

/-- In place only the bound of the place is written. -/
theorem memberInPlace_validates (lang : Dialect) (defs : String → Option Object) :
    Validates lang defs (.object memberInPlace) (ageOf 5) := by
  have hage : Use.finish ⟨ageType, [.bound .minimum 3]⟩ [] [] =
      .ok (Table.ofList [("type", .string "integer"), ("minimum", .int 3)]) := rfl
  have hmember : Use.finish (member 3) []
      [Table.ofList [("type", .string "integer"), ("minimum", .int 3)]] = .ok memberInPlace := rfl
  have hfive : Validates lang defs (.object (Table.ofList
      [("type", .string "integer"), ("minimum", .int 3)])) (.int 5) := by
    have hinteger : OfType "integer" (.int 5) := Or.inr ⟨rfl, Int.dvd_mul_left _ _⟩
    rw [validates_finish (by decide) hage, allows_primitive rfl]
    refine ⟨Or.inl hinteger, fun k hk j hj => ?_⟩
    cases k with
    | text t => cases t <;> trivial
    | length t => cases t <;> trivial
    | bound t =>
      cases t
      case minimum =>
        cases hj
        exact allows_minimum_int.mpr (by decide)
      all_goals cases hj
  rw [validates_finish (by decide) hmember, allows_record rfl rfl (by decide)]
  refine ⟨Or.inl ⟨_, rfl, ?_, ?_⟩, fun k hk => absurd hk List.not_mem_nil⟩
  · intro e he _
    obtain rfl := List.mem_singleton.mp he
    rfl
  · intro p hp w hw
    obtain rfl := List.mem_singleton.mp hp
    obtain rfl := Option.some.inj hw
    exact hfive

/-- At the pointer the bound of the type holds as well. -/
theorem not_memberDocument_validates (lang : Dialect) :
    ¬ Validates lang (definition? memberDocument) (.object memberDocument) (ageOf 5) := by
  intro h
  have hage := (validates_object.mp h).1.properties _ rfl _ rfl "age" _ _ rfl rfl
  obtain ⟨key, t, hkey, ht, hv⟩ := (validates_object.mp hage).1.ref _ rfl
  have hname : refTo "Age" = refTo key := hkey
  obtain rfl := (String.append_right_inj _).mp (Json.string.inj hname)
  obtain rfl := Option.some.inj ht
  have hleast := (validates_object.mp hv).2 (.bound .minimum) _ rfl
  exact absurd (allows_minimum_int.mp hleast) (by decide)

theorem sharing_stricter :
    (∀ x, Reaches ageGraph (member 3).descriptor x → ¬ Relation.TransGen (Child ageGraph) x x) ∧
      OneTypePerKey ageGraph (member 3) ∧
      Generator.schemaOf {} ageGraph 4 (member 3).descriptor [] = .ok memberDocument ∧
      Generator.schemaOf {} ageGraph.withoutRefs 4 (member 3).descriptor.withoutRefs [] =
        .ok memberInPlace ∧
      ∀ lang, Validates lang (definition? memberInPlace) (.object memberInPlace) (ageOf 5) ∧
        ¬ Validates lang (definition? memberDocument) (.object memberDocument) (ageOf 5) :=
  ⟨fun x _ => not_transGen_child_age x, oneTypePerKey_member 3, rfl, rfl, fun lang =>
    ⟨memberInPlace_validates lang _, not_memberDocument_validates lang⟩⟩

end TypeSchema
