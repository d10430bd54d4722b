/-
  Why a call fails.

  A build blames nothing but the defects of descriptors that are needed, if all bounds are finite
  (`blames_build`). Where a call succeeds, nothing that is needed has a defect: neither pointers nor
  wrappers hide a descriptor (`not_offending_of_schemaOf`). So on a finite graph without cycles a
  call succeeds exactly if nothing that is needed has a defect (`schemaOf_ok_iff_not_offending`).
-/
import TypeSchema.Proofs.Defects
import TypeSchema.Proofs.Narrowing
import TypeSchema.Proofs.Sharing

namespace TypeSchema

variable {N : Type} {g : Graph N}

/-- Some descriptor that is needed for `d` has the defect `e`, in one of its forms. -/
def Faulty (g : Graph N) (d : Descriptor N) (e : SchemaError) : Prop :=
  ∃ x, Needed g d x ∧ ∃ y ∈ x.forms, Defect g y e

/-- The bounds that are given as doubles are finite. -/
def Annotations.Finite (as : Annotations) : Prop :=
  ∀ t x, .boundDouble t x ∈ as → x.isFinite = true

/-- The bounds that the type and its elements are given as doubles are finite. -/
structure Descriptor.FiniteBounds (x : Descriptor N) : Prop where
  own : x.annotations.Finite
  elements : ∀ e ∈ x.elements, e.annotations.Finite

/-! ## Finite bounds -/

namespace Annotations.Finite

variable {as bs : Annotations}

theorem nil : Annotations.Finite [] := fun _ _ hx => absurd hx List.not_mem_nil

theorem append (has : as.Finite) (hbs : bs.Finite) : (as ++ bs).Finite := by
  intro t x hx
  rcases List.mem_append.mp hx with hx | hx
  · exact has t x hx
  · exact hbs t x hx

theorem withoutRefs (has : as.Finite) : as.withoutRefs.Finite :=
  fun t x hx => has t x (List.mem_of_mem_filter hx)

/-- Finite bounds pass every check. -/
theorem check (has : as.Finite) (ks : List SiteKeyword) : as.check ks = .ok () := by
  apply Annotations.check_eq_ok_iff.mpr
  intro t _ x hx
  rcases Option.or_eq_some_iff.mp hx with hint | ⟨_, hdouble⟩
  · obtain ⟨i, _, hi⟩ := Option.map_eq_some_iff.mp hint
    cases hi
  · obtain ⟨x', hx', heq⟩ := Option.map_eq_some_iff.mp hdouble
    cases heq
    obtain ⟨a, ha, htag⟩ := List.exists_of_findSome?_eq_some hx'
    cases a with
    | boundDouble t' x' =>
      change (if t' = t then some x' else none) = some x at htag
      split at htag
      · cases htag
        exact has t' x ha
      · cases htag
    | _ => cases htag

end Annotations.Finite

namespace Descriptor.FiniteBounds

variable {x y : Descriptor N}

theorem congr (hown : y.annotations = x.annotations) (hes : y.elements = x.elements)
    (h : x.FiniteBounds) : y.FiniteBounds :=
  ⟨hown ▸ h.own, hes ▸ h.elements⟩

theorem of_or (h : x.FiniteBounds) (hy : y = x ∨ y = x.intoNullable) : y.FiniteBounds := by
  rcases hy with rfl | rfl
  · exact h
  · exact h.congr x.annotations_intoNullable x.elements_intoNullable

theorem withoutRefs (h : x.FiniteBounds) : x.withoutRefs.FiniteBounds := by
  refine ⟨h.own.withoutRefs, fun e he => ?_⟩
  obtain ⟨e', he', rfl⟩ := List.mem_map.mp he
  exact (h.elements e' he').withoutRefs

theorem definition {u : Use N} (h : u.descriptor.FiniteBounds) :
    u.definition.descriptor.FiniteBounds := by
  have hnon : u.descriptor.nonNullable.FiniteBounds :=
    h.congr (Use.annotations_nonNullable _) (Use.elements_nonNullable _)
  unfold Use.definition
  split
  · exact hnon.withoutRefs
  · exact hnon

end Descriptor.FiniteBounds

/-- A part inherits finite bounds only. -/
theorem finite_of_parts {u v : Use N} {us : List (Use N)} (h : Parts g u us) (hv : v ∈ us)
    (hu : u.inherited.Finite) (hd : u.descriptor.FiniteBounds) : v.inherited.Finite := by
  intro t x ha
  rcases mem_inherited_of_parts h hv ha with ha | ha | ⟨e, he, ha⟩
  · exact hu t x ha
  · exact hd.own t x ha
  · exact hd.elements e he t x ha

/-- Putting fragments together only fails for a bound that is not finite. -/
theorem exists_finish_of_finite {u : Use N} (hu : u.inherited.Finite)
    (hd : u.descriptor.FiniteBounds) (us : List (Use N)) (fs : List Object) :
    ∃ f, u.finish us fs = .ok f := by
  unfold Use.finish
  split
  · exact ⟨_, rfl⟩
  · exact ⟨_, Descriptor.finish_eq_ok.mpr ⟨(hu.append hd.own).check _, rfl⟩⟩

/-! ## Builds that fail -/

/-- Whatever the registry holds, the build fails only with errors that `P` allows, if it does not
run out of fuel. -/
def Blames {α : Type} (P : SchemaError → Prop) (b : Build α) : Prop :=
  ∀ r e r', b r = .error (.schema e) r' → P e

namespace Blames

variable {α β : Type} {P : SchemaError → Prop}

theorem pure (a : α) : Blames P (pure a : Build α) := fun _ _ _ h => by cases h

theorem outOfFuel : Blames P (throw .outOfFuel : Build α) := fun _ _ _ h => by cases h

theorem ofExcept {x : Except Failure α} (h : ∀ e, x = .error (.schema e) → P e) :
    Blames P (Build.ofExcept x) := by
  intro r e r' hr
  cases x with
  | ok a => cases hr
  | error failure =>
    cases hr
    exact h e rfl

theorem bind {b : Build α} {k : α → Build β} (h : Blames P b)
    (hk : ∀ a r r', b r = .ok a r' → Blames P (k a)) : Blames P (b >>= k) := by
  intro r e r' hr
  rw [bind_run] at hr
  cases hb : b r with
  | ok a r₁ =>
    rw [hb] at hr
    exact hk a r r₁ hb r₁ e r' hr
  | error failure r₁ =>
    rw [hb] at hr
    cases hr
    exact h r e r' hb

theorem mapM {b : α → Build β} {as : List α} (h : ∀ a ∈ as, Blames P (b a)) :
    Blames P (as.mapM b) := by
  induction as with
  | nil => exact pure []
  | cons a as ih =>
    obtain ⟨ha, has⟩ := List.forall_mem_cons.mp h
    rw [List.mapM_cons]
    exact ha.bind fun _ _ _ _ => (ih has).bind fun _ _ _ _ => pure _

theorem request {key : String} {nullable : Bool} {b : Build Object} (h : Blames P b) :
    Blames P (request key nullable (some b)) := by
  intro r e r' hr
  by_cases hc : r.contains key = true
  · rw [request_known hc] at hr
    cases hr
  · rw [request_unknown_some (by simpa using hc)] at hr
    cases hb : b (r.insert key .pending) with
    | ok t r₁ => rw [hb] at hr; cases hr
    | error failure r₁ =>
      rw [hb] at hr
      cases hr
      exact h _ e r' hb

/-- A use built in place fails for want of its parts, or because one of them fails. -/
theorem inPlace {n : Nat} {w : Use N} (hparts : ∀ m e, w.parts g m = .error (.schema e) → P e)
    (hus : ∀ m ≤ n, ∀ us, w.parts g m = .ok us → ∀ v ∈ us, Blames P (v.build g m))
    (hfinish : ∀ us fs, ∃ f, w.finish us fs = .ok f) : Blames P (w.inPlace g n) := by
  have hassemble : ∀ m ≤ n, Blames P (w.assemble g m) := by
    intro m hm
    unfold Use.assemble
    refine (Blames.ofExcept (hparts m)).bind fun us r r' hok => ?_
    obtain ⟨hp, _⟩ := ofExcept_eq_ok.mp hok
    refine (Blames.mapM (hus m hm us hp)).bind fun fs _ _ _ => .ofExcept fun e he => ?_
    obtain ⟨f, hf⟩ := hfinish us fs
    rw [hf] at he
    cases he
  rcases Use.inPlace_eq g n w with hrun | ⟨m, hm, hrun⟩
  · rw [hrun]
    exact outOfFuel
  · rw [hrun]
    exact hassemble m hm

end Blames

/-! ## Defects of what is needed -/

/-- A use of `x`, nullable or not, that passes on nothing but finite bounds. -/
structure FiniteUse (x : Descriptor N) (u : Use N) : Prop where
  descriptor : u.descriptor = x ∨ u.descriptor = x.intoNullable
  inherited : u.inherited.Finite

namespace FiniteUse

variable {x : Descriptor N} {u : Use N}

theorem outline (h : FiniteUse x u) : u.descriptor.outline = x.outline :=
  Descriptor.outline_eq_of_or h.descriptor

/-- What is built in place for a use, or for its definition, are uses of what is needed. -/
theorem parts (h : FiniteUse x u) (hx : x.FiniteBounds) {w v : Use N}
    (hw : w = u ∨ w = u.definition) {us : List (Use N)} (hp : Parts g w us) (hv : v ∈ us) :
    ∃ c, Needs g x c ∧ FiniteUse c v := by
  have hbounds := hx.of_or h.descriptor
  obtain ⟨houtline, hinherited, hw⟩ : w.descriptor.outline = x.outline ∧ w.inherited.Finite ∧
      w.descriptor.FiniteBounds := by
    rcases hw with rfl | rfl
    · exact ⟨h.outline, h.inherited, hbounds⟩
    · refine ⟨u.outline_definition.trans h.outline, ?_, hbounds.definition⟩
      rw [Use.inherited_definition]
      exact .nil
  obtain ⟨c, hc, hvc⟩ := needs_of_parts hp hv
  exact ⟨c, hc.of_outline houtline, hvc, finite_of_parts hp hv hinherited hw⟩

end FiniteUse

section

variable {d x : Descriptor N} {u : Use N} {n : Nat} {e : SchemaError}

theorem Faulty.of_needed (h : Needed g d x) (he : Faulty g x e) : Faulty g d e := by
  obtain ⟨y, hy, hdefect⟩ := he
  exact ⟨y, h.trans hy, hdefect⟩

theorem Faulty.of_use (hu : FiniteUse x u) (h : Defect g u.descriptor e) : Faulty g x e :=
  ⟨x, .refl, _, Descriptor.mem_forms_of_or hu.descriptor, h⟩

/-- A pointer fails for a wrapper that is malformed, the use itself or one inside. -/
theorem faulty_of_pointer {key : String} (hu : FiniteUse x u)
    (h : u.pointer g n key = .error (.schema e)) : Faulty g x e := by
  unfold Use.pointer at h
  rcases except_bind_eq_error.mp h with h | ⟨target, _, h⟩
  · unfold Use.target at h
    split at h
    · next hw =>
      have hk := Descriptor.isWrapper_iff.mp hw
      rcases except_bind_eq_error.mp h with h | ⟨value, hvalue, h⟩
      · rw [except_mapError_schema] at h
        exact .of_use hu (.malformed (.of_wrapped hk h))
      · rw [except_mapError_eq_ok, Use.wrapped_eq_ok] at hvalue
        obtain ⟨w, hlook, _, hm⟩ := looksTo_of_innermost_error h
        have hneeds : Needs g x (value.child g) := (Needs.inner hk hvalue).of_outline hu.outline
        exact ⟨w, .head hneeds hlook.needed, w, List.mem_cons_self, .malformed hm⟩
    · cases h
  · rw [hu.inherited.check] at h
    cases h

/-- A wrapper that a use with a key refuses is malformed. -/
theorem faulty_of_guard (hu : FiniteUse x u) (h : u.guard = .error (.schema e)) :
    Faulty g x e := by
  unfold Use.guard at h
  split at h
  · next hw =>
    rw [except_map_eq_error, except_mapError_schema] at h
    exact .of_use hu (.malformed (.of_wrapped (Descriptor.isWrapper_iff.mp hw) h))
  · cases h

/-- The definition of a use that is not refused has no parts only if the type has a defect. -/
theorem faulty_of_parts_definition (hu : FiniteUse x u) (hguard : u.guard = .ok ())
    (h : u.definition.parts g n = .error (.schema e)) : Faulty g x e := by
  by_cases hw : u.descriptor.isWrapper = true
  · unfold Use.guard at hguard
    rw [if_pos hw, except_map_eq_ok] at hguard
    obtain ⟨value, hvalue, _⟩ := hguard
    rw [except_mapError_eq_ok] at hvalue
    rw [Use.parts_definition_of_wrapped g n hw hvalue] at h
    cases h
  · have hdefinition : u.definition.descriptor = u.descriptor.nonNullable := by
      unfold Use.definition
      rw [if_neg hw]
    have hdefect := defect_of_parts h
    rw [hdefinition] at hdefect
    exact ⟨x, .refl, _, Descriptor.nonNullable_mem_forms hu.descriptor, hdefect⟩

/-- Building a use of `x` blames nothing but the defects of what is needed for `x`. -/
theorem blames_build (hbounds : ∀ y, Reaches g x y → y.FiniteBounds) (n : Nat)
    (hu : FiniteUse x u) : Blames (Faulty g x) (u.build g n) := by
  induction n using Nat.strongRecOn generalizing x u with
  | ind n ih =>
    cases n with
    | zero =>
      rw [Use.build_zero]
      exact Blames.outOfFuel
    | succ n =>
      have hx := hbounds x .refl
      have hd := hx.of_or hu.descriptor
      have hus : ∀ w, w = u ∨ w = u.definition → ∀ m ≤ n, ∀ us, w.parts g m = .ok us →
          ∀ v ∈ us, Blames (Faulty g x) (v.build g m) := by
        intro w hw m hm us hp v hv
        obtain ⟨c, hc, hvc⟩ := hu.parts hx hw (Parts.of_parts hp) hv
        have hblames := ih m (by omega) (fun y hy => hbounds y (.head hc.child hy)) hvc
        exact fun r e r' hr => .of_needed (.single hc) (hblames r e r' hr)
      cases hk : u.key? with
      | none =>
        rw [Use.build_unkeyed g n hk]
        exact .inPlace (fun m e he => .of_use hu (defect_of_parts he)) (hus u (Or.inl rfl))
          (exists_finish_of_finite hu.inherited hd)
      | some key =>
        rw [Use.build_keyed g n hk]
        refine (Blames.ofExcept fun e he => faulty_of_guard hu he).bind fun _ _ _ hok => ?_
        obtain ⟨hguard, _⟩ := ofExcept_eq_ok.mp hok
        refine (Blames.request ?_).bind fun _ _ _ _ =>
          .ofExcept fun e he => faulty_of_pointer hu he
        refine .inPlace (fun m e he => faulty_of_parts_definition hu hguard he)
          (hus _ (Or.inr rfl)) (exists_finish_of_finite ?_ hd.definition)
        rw [Use.inherited_definition]
        exact .nil

/-! ## Defects and success -/

/-- Where all that is met has parts, everything needed is met. -/
theorem exists_meets_of_needed {root : Use N}
    (hparts : ∀ u, Meets g root u → ∃ n us, u.content.parts g n = .ok us)
    (hx : Needed g root.descriptor x) :
    ∃ u, Meets g root u ∧ (u.descriptor = x ∨ u.descriptor = x.intoNullable) := by
  induction hx with
  | refl => exact ⟨root, .refl, Or.inl rfl⟩
  | @tail x c _ hstep ih =>
    obtain ⟨u, hu, hux⟩ := ih
    obtain ⟨n, us, hp⟩ := hparts u hu
    have houtline := u.outline_content.trans (Descriptor.outline_eq_of_or hux)
    obtain ⟨v, hv, hvc⟩ := exists_part_of_needs (Parts.of_parts hp) (hstep.of_outline houtline.symm)
    exact ⟨v, hu.tail ⟨n, us, hp, hv⟩, hvc⟩

theorem not_offending_of_meets {root : Use N}
    (hparts : ∀ u, Meets g root u → ∃ n us, u.content.parts g n = .ok us)
    (hx : Needed g root.descriptor x) : ¬ Offending g x := by
  intro hoffending
  obtain ⟨u, hu, hux⟩ := exists_meets_of_needed hparts hx
  obtain ⟨n, us, hp⟩ := hparts u hu
  have houtline := u.outline_content.trans (Descriptor.outline_eq_of_or hux)
  exact not_offending_of_parts hp (hoffending.of_outline houtline.symm)

/-- A call that succeeds needs no descriptor that has a defect. -/
theorem not_offending_of_schemaOf {seed : Annotations} {doc : Object}
    (hone : OneTypePerKey g ⟨d, seed⟩) (h : Generator.schemaOf {} g n d seed = .ok doc)
    (hx : Needed g d x) : ¬ Offending g x := by
  obtain ⟨f, r, hb, _⟩ := builds_of_schemaOf h
  obtain ⟨S, hS, hplaced⟩ := exists_visits_placed hb
  have hparts : ∀ u, Meets g ⟨d, seed⟩ u → ∃ n us, u.content.parts g n = .ok us :=
    fun u hu => hS.exists_parts_of_meets hone hplaced hu
  exact not_offending_of_meets hparts hx

/-- A call that fails blames a descriptor that is needed and has a defect. -/
theorem faulty_of_schemaOf {seed : Annotations} (hbounds : ∀ y, Reaches g d y → y.FiniteBounds)
    (hseed : seed.Finite) (h : Generator.schemaOf {} g n d seed = .error (.schema e)) :
    Faulty g d e := by
  have hblames := blames_build hbounds n (u := ⟨d, seed⟩) ⟨Or.inl rfl, hseed⟩
  unfold Generator.schemaOf at h
  cases hb : Generator.build {} g n d seed {} with
  | ok f r =>
    rw [hb] at h
    cases h
  | error failure r =>
    rw [hb] at h
    cases h
    exact hblames {} e r hb

theorem finitelyCut_of_acyclic (hfinite : {y | Reaches g d y}.Finite)
    (hacyclic : ∀ y, Reaches g d y → ¬ Relation.TransGen (Child g) y y) : FinitelyCut g d where
  finite := hfinite
  cut y hy hcycle := hacyclic y hy (Relation.TransGen.mono (fun _ _ hstep => hstep.2) y y hcycle)
  unwrapped y hy hcycle :=
    hacyclic y hy (Relation.TransGen.mono (fun _ _ hstep => hstep.2) y y hcycle)

/-- On a finite graph without cycles, whose double bounds are finite and where no key is asked for
by two types, a call succeeds exactly if nothing that is needed has a defect. If it fails, then
with the defect of a descriptor that is needed, under the name of one of its forms. -/
theorem schemaOf_ok_iff_not_offending {seed : Annotations}
    (hfinite : {y | Reaches g d y}.Finite)
    (hacyclic : ∀ y, Reaches g d y → ¬ Relation.TransGen (Child g) y y)
    (hbounds : ∀ y, Reaches g d y → y.FiniteBounds) (hseed : seed.Finite)
    (hone : OneTypePerKey g ⟨d, seed⟩) :
    ∃ fuel answer, (∀ more ≥ fuel, Generator.schemaOf {} g more d seed = answer) ∧
      ((∃ doc, answer = .ok doc) ↔ ∀ x, Needed g d x → ¬ Offending g x) ∧
      ∀ failure, answer = .error failure → ∃ e x, failure = .schema e ∧ Needed g d x ∧
        ∃ y ∈ x.forms, Defect g y e := by
  obtain ⟨fuel, answer, hfuel, hanswer⟩ :=
    schemaOf_terminates (finitelyCut_of_acyclic hfinite hacyclic) seed
  have hrun := hanswer fuel (Nat.le_refl fuel)
  have hfaulty : ∀ failure, answer = .error failure →
      ∃ e, failure = .schema e ∧ Faulty g d e := by
    intro failure hfailure
    rw [hfailure] at hrun hfuel
    cases failure with
    | schema e => exact ⟨e, rfl, faulty_of_schemaOf hbounds hseed hrun⟩
    | outOfFuel => exact absurd rfl hfuel
  refine ⟨fuel, answer, hanswer, ⟨?_, ?_⟩, fun failure hfailure => ?_⟩
  · intro hok x hx
    obtain ⟨doc, rfl⟩ := hok
    exact not_offending_of_schemaOf hone hrun hx
  · intro hnone
    cases answer with
    | ok doc => exact ⟨doc, rfl⟩
    | error failure =>
      obtain ⟨e, _, x, hx, y, hy, hdefect⟩ := hfaulty failure rfl
      have hoffending : Offending g y := ⟨e, hdefect⟩
      exact absurd (hoffending.of_outline (Descriptor.outline_of_mem_forms hy)) (hnone x hx)
  · obtain ⟨e, he, x, hx, hform⟩ := hfaulty failure hfailure
    exact ⟨e, x, he, hx, hform⟩

end

/-! ## A map whose keys are numbers -/

/-- Counts by number, a map that no JSON object can be. -/
def tally : Descriptor Unit := .map "Tally" () ()

def tallyGraph : Graph Unit := fun _ => .ofKind "Int" (.primitive .int)

theorem reaches_tally {y : Descriptor Unit} (h : Reaches tallyGraph tally y) :
    y = tally ∨ y = .ofKind "Int" (.primitive .int) := by
  induction h with
  | refl => exact Or.inl rfl
  | tail _ hchild _ =>
    obtain ⟨_, _, rfl⟩ := hchild
    exact Or.inr rfl

/-- The call for a tally meets nothing but the tally. -/
theorem eq_of_meets_tally {seed : Annotations} {u : Use Unit}
    (h : Meets tallyGraph ⟨tally, seed⟩ u) : u.descriptor = tally := by
  induction h with
  | refl => rfl
  | tail _ hstep ih =>
    obtain ⟨n, us, hp, hv⟩ := hstep
    have hcontent : Offending tallyGraph tally :=
      ⟨_, .key rfl rfl .refl (by decide) (by decide)⟩
    refine absurd (hcontent.of_outline ?_) (not_offending_of_parts hp)
    rw [Use.outline_content, ih]

theorem schemaOf_tally : ∃ fuel answer,
    (∀ more ≥ fuel, Generator.schemaOf {} tallyGraph more tally [.text .title "tally"] = answer) ∧
      ((∃ doc, answer = .ok doc) ↔ ∀ x, Needed tallyGraph tally x → ¬ Offending tallyGraph x) ∧
      ∀ failure, answer = .error failure → ∃ e x, failure = .schema e ∧
        Needed tallyGraph tally x ∧ ∃ y ∈ x.forms, Defect tallyGraph y e := by
  apply schemaOf_ok_iff_not_offending
  · refine (Set.toFinite {tally, .ofKind "Int" (.primitive .int)}).subset ?_
    exact fun y hy => reaches_tally hy
  · exact fun y _ => not_transGen_child_of_leaves (fun _ => rfl) y
  · intro y hy
    rcases reaches_tally hy with rfl | rfl
    · refine ⟨.nil, fun e he => ?_⟩
      simp only [tally, Descriptor.map, List.mem_cons, List.not_mem_nil, or_false] at he
      rcases he with rfl | rfl
      · exact .nil
      · exact .nil
    · exact ⟨.nil, fun e he => absurd he List.not_mem_nil⟩
  · intro t x ha
    cases List.mem_singleton.mp ha
  · intro u v key hu hv _ _
    rw [eq_of_meets_tally hu, eq_of_meets_tally hv]

end TypeSchema
