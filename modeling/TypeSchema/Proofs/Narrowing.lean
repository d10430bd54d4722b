/-
  Constraints of two places.

  Built in place, a use writes one value under each keyword, from the annotations of the place and
  those of the type together: an integer bound before a double one, and else that of the nearer
  place. Beside a pointer both places write theirs. What satisfies each of the two satisfies
  both together (`Annotations.Satisfied.append`). The other way around holds where the annotations
  of the place are a narrowing of those of the type (`Annotations.Narrows`).
-/
import TypeSchema.Proofs.UseSite
import TypeSchema.Proofs.Validation

namespace TypeSchema

variable {N : Type} {g : Graph N}

/-- The annotations that a type has for the value inside its wrappers, from the outside in, and
the kind of that value. -/
inductive Inside (g : Graph N) : Descriptor N → Annotations → Kind → Prop
  | base {d} : d.kind ≠ .wrapper → Inside g d d.annotations d.kind
  | wrapper {d value as k} : d.kind = .wrapper → d.elements = [value] →
    Inside g (value.child g) as k → Inside g d (d.annotations ++ value.annotations ++ as) k

namespace Annotations

/-- Wherever both places have a value under one of the keywords, the one that is written for both
together lets nothing pass that either of them stops. -/
def Narrows (lang : Dialect) (as bs : Annotations) (ks : List SiteKeyword) : Prop :=
  ∀ k ∈ ks, ∀ a b j, as.value? k = some a → bs.value? k = some b → (as ++ bs).value? k = some j →
    ∀ v, k.Allows lang j v → k.Allows lang a v ∧ k.Allows lang b v

/-! ## Values -/

section

variable {as bs : Annotations} {k : SiteKeyword}

theorem value?_append_of_left (h : bs.value? k = none) : (as ++ bs).value? k = as.value? k := by
  cases k with
  | text t =>
    have hbs : bs.text? t = none := Option.map_eq_none_iff.mp h
    simp only [value?, text?_append, hbs, Option.or_none]
  | length t =>
    have hbs : bs.length? t = none := Option.map_eq_none_iff.mp h
    simp only [value?, length?_append, hbs, Option.or_none]
  | bound t =>
    obtain ⟨hint, hdouble⟩ := Option.or_eq_none_iff.mp h
    rw [Option.map_eq_none_iff] at hint hdouble
    simp only [value?, bound?_append, boundDouble?_append_or, hint, hdouble, Option.or_none]

theorem value?_append_of_right (h : as.value? k = none) : (as ++ bs).value? k = bs.value? k := by
  cases k with
  | text t =>
    have has : as.text? t = none := Option.map_eq_none_iff.mp h
    simp only [value?, text?_append, has, Option.none_or]
  | length t =>
    have has : as.length? t = none := Option.map_eq_none_iff.mp h
    simp only [value?, length?_append, has, Option.none_or]
  | bound t =>
    obtain ⟨hint, hdouble⟩ := Option.or_eq_none_iff.mp h
    rw [Option.map_eq_none_iff] at hint hdouble
    simp only [value?, bound?_append, boundDouble?_append_or, hint, hdouble, Option.none_or]

/-- What both places write together is what one of them writes. -/
theorem value?_of_append {j : Json} (h : (as ++ bs).value? k = some j) :
    as.value? k = some j ∨ bs.value? k = some j := by
  cases k with
  | text t =>
    simp only [value?, text?_append] at h ⊢
    cases has : as.text? t with
    | none => exact Or.inr (by simpa [has] using h)
    | some s => exact Or.inl (by simpa [has] using h)
  | length t =>
    simp only [value?, length?_append] at h ⊢
    cases has : as.length? t with
    | none => exact Or.inr (by simpa [has] using h)
    | some n => exact Or.inl (by simpa [has] using h)
  | bound t =>
    simp only [value?, bound?_append, boundDouble?_append_or] at h ⊢
    cases has : as.bound? t with
    | some i => exact Or.inl (by simpa [has] using h)
    | none =>
      cases hbs : bs.bound? t with
      | some i => exact Or.inr (by simpa [has, hbs] using h)
      | none =>
        cases hx : as.boundDouble? t with
        | some x => exact Or.inl (by simpa [has, hbs, hx] using h)
        | none => exact Or.inr (by simpa [has, hbs, hx] using h)

theorem exists_value?_append {a : Json} (h : as.value? k = some a) (bs : Annotations) :
    ∃ j, (as ++ bs).value? k = some j := by
  rw [← Option.isSome_iff_exists]
  have has : (as.value? k).isSome = true := by rw [h]; rfl
  cases k with
  | text t => simp_all [value?, text?_append, Option.isSome_or]
  | length t => simp_all [value?, length?_append, Option.isSome_or]
  | bound t =>
    simp only [value?, bound?_append, boundDouble?_append_or, Option.isSome_or,
      Option.isSome_map, Bool.or_eq_true] at has ⊢
    rcases has with hint | hdouble
    · exact Or.inl (Or.inl hint)
    · exact Or.inr (Or.inl hdouble)

theorem check_bound {t : Bound} : as.check [.bound t] = .ok () ↔
    ∀ x, as.value? (.bound t) = some (.number (.double x)) → x.isFinite = true := by
  simp only [check, value?]
  cases as.bound? t with
  | some i => simp [Json.int]
  | none =>
    cases as.boundDouble? t with
    | none => simp
    | some x => by_cases hx : x.isFinite = true <;> simp [hx]

/-- The check passes if every double that would be written is finite. -/
theorem check_eq_ok_iff {ks : List SiteKeyword} : as.check ks = .ok () ↔
    ∀ t, .bound t ∈ ks → ∀ x, as.value? (.bound t) = some (.number (.double x)) →
      x.isFinite = true := by
  induction ks with
  | nil => exact ⟨fun _ t ht => absurd ht List.not_mem_nil, fun _ => rfl⟩
  | cons k ks ih =>
    cases k with
    | text t => simpa [check] using ih
    | length t => simpa [check] using ih
    | bound t =>
      rw [check_cons_bound, except_bind_eq_ok]
      simp only [List.mem_cons, SiteKeyword.bound.injEq, forall_eq_or_imp]
      rw [← ih, ← check_bound]
      constructor
      · intro h
        obtain ⟨_, h⟩ := h
        exact h
      · intro h
        exact ⟨(), h⟩

theorem check_append_of_check {ks : List SiteKeyword} (has : as.check ks = .ok ())
    (hbs : bs.check ks = .ok ()) : (as ++ bs).check ks = .ok () := by
  rw [check_eq_ok_iff] at has hbs ⊢
  intro t ht x hx
  rcases value?_of_append hx with hx | hx
  · exact has t ht x hx
  · exact hbs t ht x hx

end

/-! ## Satisfied annotations -/

section

variable {lang : Dialect} {as bs : Annotations} {ks : List SiteKeyword} {v : Json}

theorem Satisfied.append (has : as.Satisfied lang ks v) (hbs : bs.Satisfied lang ks v) :
    (as ++ bs).Satisfied lang ks v := by
  intro k hk j hj
  rcases value?_of_append hj with hj | hj
  · exact has k hk j hj
  · exact hbs k hk j hj

/-- What satisfies the annotations of both places together satisfies those of each. -/
theorem Narrows.satisfied (h : Narrows lang as bs ks) (hv : (as ++ bs).Satisfied lang ks v) :
    as.Satisfied lang ks v ∧ bs.Satisfied lang ks v := by
  have hboth : ∀ k ∈ ks, ∀ a b, as.value? k = some a → bs.value? k = some b →
      k.Allows lang a v ∧ k.Allows lang b v := by
    intro k hk a b ha hb
    obtain ⟨j, hj⟩ := exists_value?_append ha bs
    exact h k hk a b j ha hb hj v (hv k hk j hj)
  refine ⟨fun k hk a ha => ?_, fun k hk b hb => ?_⟩
  · cases hb : bs.value? k with
    | none => exact hv k hk a ((value?_append_of_left hb).trans ha)
    | some b => exact (hboth k hk a b ha hb).1
  · cases ha : as.value? k with
    | none => exact hv k hk b ((value?_append_of_right ha).trans hb)
    | some a => exact (hboth k hk a b ha hb).2

/-- An integer in front of another value is written in its place, so it is enough that what it
lets pass is let pass by the other. -/
theorem Narrows.of_doubleFree (has : as.DoubleFree) (h : ∀ k ∈ ks, ∀ a b, as.value? k = some a →
    bs.value? k = some b → ∀ v, k.Allows lang a v → k.Allows lang b v) :
    Narrows lang as bs ks := by
  intro k hk a b j ha hb hj v hv
  rw [value?_append has, ha, Option.some_or] at hj
  obtain rfl := Option.some.inj hj
  exact ⟨hv, h k hk a b ha hb v hv⟩

theorem satisfied_withoutRefs :
    as.withoutRefs.Satisfied lang ks v ↔ as.Satisfied lang ks v := by
  unfold Satisfied
  simp only [value?_withoutRefs]

end

end Annotations

/-! ## The annotations of a type -/

namespace Inside

variable {d d' : Descriptor N} {as : Annotations} {k : Kind}

theorem exists_of_innerKind (h : InnerKind g d k) : ∃ as, Inside g d as k := by
  induction h with
  | base hk => exact ⟨_, .base hk⟩
  | wrapper hk hes _ ih =>
    obtain ⟨as, has⟩ := ih
    exact ⟨_, .wrapper hk hes has⟩

theorem congr (hk : d'.kind = d.kind) (has : d'.annotations = d.annotations)
    (hes : d'.elements = d.elements) (h : Inside g d as k) : Inside g d' as k := by
  cases h with
  | base hd =>
    rw [← has, ← hk]
    exact .base (hk ▸ hd)
  | wrapper hd hed hv =>
    rw [← has]
    exact .wrapper (hk.trans hd) (hes.trans hed) hv

theorem passNullable (c : Descriptor N) (h : Inside g d as k) :
    Inside g (c.passNullable d) as k := by
  have hnullable : Inside g d.intoNullable as k := by
    unfold Descriptor.intoNullable
    split
    · exact h
    · exact congr (d := d) rfl rfl rfl h
  unfold Descriptor.passNullable
  split
  · exact hnullable
  · exact h

theorem withoutRefs (h : Inside g d as k) :
    Inside g.withoutRefs d.withoutRefs as.withoutRefs k := by
  induction h with
  | @base d hk => exact .base (d := d.withoutRefs) hk
  | @wrapper d value as k hk hes _ ih =>
    rw [Annotations.withoutRefs_append, Annotations.withoutRefs_append]
    exact .wrapper (d := d.withoutRefs) hk (Descriptor.elements_withoutRefs_of_singleton hes) ih

end Inside

end TypeSchema
