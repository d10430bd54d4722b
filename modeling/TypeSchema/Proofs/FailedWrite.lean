/-
  What a writer leaves of the fragment when it fails.

  The structural writers build all that they need before they touch the fragment, so each of them
  sets its one keyword or leaves the fragment as it was (`Write.Sets`, `set_or_unchanged`). The
  bounds are written one after the other, and the first that is refused stops the rest: those
  before it stay in the fragment (`left_of_refused`, `bound_left_behind`).
-/
import TypeSchema.Proofs.PrimitiveFragment

namespace TypeSchema

variable {N α : Type}

/-! ## One keyword -/

/-- From every registry the writer sets the keyword, or it fails and sets nothing. Its value, the
error and what comes of the registry do not depend on the fragment. -/
def Write.Sets (w : Write Unit) (keyword : String) : Prop :=
  ∀ r : Registry,
    (∃ v r', ∀ s, w ⟨s, r⟩ = .ok () ⟨s.insert keyword v, r'⟩) ∨
    ∃ e r', ∀ s, w ⟨s, r⟩ = .error e ⟨s, r'⟩

namespace Write.Sets

variable {keyword : String}

theorem put (keyword : String) (v : Json) : Sets (put keyword v) keyword :=
  fun r => Or.inl ⟨v, r, fun _ => rfl⟩

theorem throw (e : Failure) : Sets (throw e) keyword := fun r => Or.inr ⟨e, r, fun _ => rfl⟩

/-- What is built first may fail, but it is out of the reach of the fragment. -/
theorem build (b : Build α) {k : α → Write Unit} (hk : ∀ a, Sets (k a) keyword) :
    Sets ((b : Write α) >>= k) keyword := by
  intro r
  cases hb : b r with
  | ok a r₁ =>
    have hrun : ∀ s, ((b : Write α) >>= k) ⟨s, r⟩ = k a ⟨s, r₁⟩ := by
      intro s
      rw [bind_run, Write.build_run, hb]
    simp only [hrun]
    exact hk a r₁
  | error e r₁ =>
    refine Or.inr ⟨e, r₁, fun s => ?_⟩
    rw [bind_run, Write.build_run, hb]

theorem orFail (x : Except SchemaError α) {k : α → Write Unit} (hk : ∀ a, Sets (k a) keyword) :
    Sets ((TypeSchema.orFail x : Write α) >>= k) keyword := by
  cases x with
  | ok a => exact hk a
  | error e => exact throw (.schema e)

end Write.Sets

/-- The writers of one keyword that is made from the elements of a descriptor. -/
inductive StructuralWriter (N : Type) where
  | type
  | properties
  | items
  | additionalProperties (value : Element N)
  | variants (discriminator : String)

namespace StructuralWriter

def keyword : StructuralWriter N → String
  | type => "type"
  | properties => "properties"
  | items => "items"
  | additionalProperties _ => "additionalProperties"
  | variants _ => "anyOf"

def write (c : Context N) : StructuralWriter N → Write Unit
  | type => c.writeType
  | properties => c.writeProperties
  | items => c.writeItems
  | additionalProperties value => c.writeAdditionalProperties value
  | variants discriminator => c.writeVariants discriminator

theorem sets (c : Context N) (w : StructuralWriter N) : (w.write c).Sets w.keyword := by
  cases w with
  | type => exact .orFail _ fun t => .put "type" _
  | properties => exact .build _ fun ps => .put "properties" _
  | items => exact .orFail _ fun item => .build _ fun f => .put "items" _
  | additionalProperties value => exact .build _ fun f => .put "additionalProperties" _
  | variants discriminator =>
    change (c.writeVariants discriminator).Sets "anyOf"
    by_cases hne : c.descriptor.elements.isEmpty = true
    · rw [writeVariants_empty c hne]
      exact .throw _
    · rw [writeVariants_eq c (by simpa using hne)]
      exact .build _ fun fs => .put "anyOf" _

end StructuralWriter

/-- From whatever registry a structural writer sets its keyword, over what stood there, and no other
one, or else it fails and leaves every fragment as it was. The strategies behind the context may be
any, and the failure may come from anywhere below. -/
theorem set_or_unchanged (w : StructuralWriter N) (c : Context N) (r : Registry) :
    (∃ v r', ∀ s : Object, w.write c ⟨s, r⟩ = .ok () ⟨s.insert w.keyword v, r'⟩ ∧
      ∀ k, (s.insert w.keyword v).get? k = if w.keyword = k then some v else s.get? k) ∨
    ∃ e r', ∀ s : Object, w.write c ⟨s, r⟩ = .error e ⟨s, r'⟩ := by
  rcases w.sets c r with ⟨v, r', hset⟩ | hfail
  · exact Or.inl ⟨v, r', fun s => ⟨hset s, fun k => Table.get?_insert s _ k v⟩⟩
  · exact Or.inr hfail

/-- A type with a definition, and one that has no fragment. -/
def knownOrNot : Graph Bool
  | true => { serialName := "Known", kind := .marker, annotations := [.refBySerialName] }
  | false => { serialName := "Unknown", kind := .contextual }

/-- The first property is built, and its definition stays. The second one fails. -/
example (s : Object) : StructuralWriter.properties.write (Generator.context {} knownOrNot 3 {
      serialName := "Pair"
      kind := .record
      elements := [{ name := "a", target := true }, { name := "b", target := false }] } [])
      ⟨s, {}⟩ =
    .error (.schema (.contextualUnsupported "Unknown"))
      ⟨s, ({} : Registry).insert "Known" (.ready .empty)⟩ := rfl

/-! ## The bounds -/

/-- The bounds that are written before this one. -/
def Bound.earlier (t : Bound) : List Bound :=
  [minimum, maximum, exclusiveMinimum, exclusiveMaximum, multipleOf].takeWhile (· ≠ t)

theorem Bound.earlier_of_eq {before after : List Bound} {t : Bound}
    (h : Bound.inOrder = before ++ t :: after) : t.earlier = before := by
  have hnodup : (before ++ t :: after).Nodup := h ▸ by decide
  have hbefore : ∀ t' ∈ before, decide (t' ≠ t) = true := by
    rintro t' ht'
    refine decide_eq_true fun heq => ?_
    exact List.disjoint_of_nodup_append hnodup ht' (heq ▸ List.mem_cons_self)
  change Bound.inOrder.takeWhile _ = before
  rw [h, List.takeWhile_append_of_pos hbefore, List.takeWhile_cons_of_neg (by simp),
    List.append_nil]

namespace Annotations

variable {as : Annotations}

/-- What the annotations give a bound: the first integer, or else the first double. -/
inductive Gives (as : Annotations) (t : Bound) : Json → Prop
  | integer {i : Int64} : as.FirstOfTag (.bound t i) → Gives as t (.int i.toInt)
  | double {x : Double} : (∀ i, .bound t i ∉ as) → as.FirstOfTag (.boundDouble t x) →
    Gives as t (.number (.double x))

theorem value?_eq_some_iff_gives {t : Bound} {v : Json} :
    as.value? (.bound t) = some v ↔ as.Gives t v := by
  rw [value?_bound_eq_some_iff]
  constructor
  · rintro (⟨i, hi, rfl⟩ | ⟨hnone, x, hx, rfl⟩)
    · exact .integer hi
    · exact .double hnone hx
  · rintro (hi | ⟨hnone, hx⟩)
    · exact Or.inl ⟨_, hi, rfl⟩
    · exact Or.inr ⟨hnone, _, hx, rfl⟩

theorem value?_eq_none_iff_gives {t : Bound} :
    as.value? (.bound t) = none ↔ ∀ v, ¬ as.Gives t v := by
  rw [Option.eq_none_iff_forall_ne_some]
  exact forall_congr' fun v => not_congr value?_eq_some_iff_gives

/-- What the bounds `ts` have made of the fragment `s`. Those that the annotations give stand in
it, and the rest is what it was. -/
structure Wrote (as : Annotations) (ts : List Bound) (s s' : Object) : Prop where
  written : ∀ t ∈ ts, ∀ v, as.Gives t v → s'.get? t.keyword = some v
  kept : ∀ k, (∀ t ∈ ts, t.keyword = k → ∀ v, ¬ as.Gives t v) → s'.get? k = s.get? k
  unchanged : (∀ t ∈ ts, ∀ v, ¬ as.Gives t v) → s' = s

theorem wrote_write (as : Annotations) (ts : List Bound) (s : Object) :
    as.Wrote ts s (as.write (ts.map .bound) s) where
  written t ht v hv := by
    have hmem : SiteKeyword.bound t ∈ ts.map .bound := List.mem_map_of_mem ht
    change (as.write _ s).get? (SiteKeyword.bound t).name = _
    rw [as.get?_write_of_mem s hmem, value?_eq_some_iff_gives.mpr hv, Option.some_or]
  kept k hk := by
    by_cases hname : ∃ t ∈ ts, t.keyword = k
    · obtain ⟨t, ht, rfl⟩ := hname
      have hmem : SiteKeyword.bound t ∈ ts.map .bound := List.mem_map_of_mem ht
      have hnone : as.value? (.bound t) = none := value?_eq_none_iff_gives.mpr (hk t ht rfl)
      change (as.write _ s).get? (SiteKeyword.bound t).name = _
      rw [as.get?_write_of_mem s hmem, hnone, Option.none_or]
      rfl
    · refine as.get?_write_of_not_mem s fun k' hk' hkeyword => hname ?_
      obtain ⟨t, ht, rfl⟩ := List.mem_map.mp hk'
      exact ⟨t, ht, hkeyword⟩
  unchanged h := by
    refine as.write_eq_self s fun k hk => ?_
    obtain ⟨t, ht, rfl⟩ := List.mem_map.mp hk
    exact value?_eq_none_iff_gives.mpr (h t ht)

/-- A refused bound is not written, and any other is put where it belongs. -/
theorem writeNumberConstraint_cases (as : Annotations) (t : Bound) (draft : Draft) :
    (∃ x, as.NonFinite t x ∧ as.writeNumberConstraint t draft =
      .error (.schema (.nonFiniteBound t.keyword x)) draft) ∨
    (∀ x, ¬ as.NonFinite t x) ∧ as.writeNumberConstraint t draft =
      .ok () { draft with fragment := as.put draft.fragment (.bound t) } := by
  rcases as.check_bound_cases t with ⟨x, hx, _⟩ | ⟨hfinite, hcheck⟩
  · obtain ⟨hbound, hdouble, hx'⟩ := nonFinite_iff.mp hx
    refine Or.inl ⟨x, hx, ?_⟩
    simp only [writeNumberConstraint, writeBound, writeBoundDouble, hbound, hdouble, hx',
      Option.map_none, putIfPresent, bind_run, pure_run, Bool.false_eq_true, if_false]
    rfl
  · have hrun := writes_numberConstraint as t draft
    rw [hcheck] at hrun
    obtain ⟨_, hrun⟩ := hrun
    exact Or.inr ⟨hfinite, hrun⟩

/-- The bounds before the one that is refused have been written by then. -/
theorem bounds_run_error {ts : List Bound} {draft draft' : Draft} {e : Failure}
    (h : ts.forM as.writeNumberConstraint draft = .error e draft') :
    ∃ before t after x, ts = before ++ t :: after ∧ (∀ t' ∈ before, ∀ y, ¬ as.NonFinite t' y) ∧
      as.NonFinite t x ∧ e = .schema (.nonFiniteBound t.keyword x) ∧
      draft' = { draft with fragment := as.write (before.map .bound) draft.fragment } := by
  -- over the bounds that are still to be written, each on the draft that the last one has left
  induction ts generalizing draft with
  | nil => cases h
  | cons t ts ih =>
    change (as.writeNumberConstraint t >>= fun _ => ts.forM as.writeNumberConstraint) draft = _ at h
    rw [bind_run] at h
    rcases as.writeNumberConstraint_cases t draft with ⟨x, hx, hrun⟩ | ⟨hfinite, hrun⟩
    · rw [hrun] at h
      cases h
      exact ⟨[], t, ts, x, rfl, nofun, hx, rfl, rfl⟩
    · rw [hrun] at h
      obtain ⟨before, t', after, x, rfl, hbefore, hx, rfl, rfl⟩ := ih h
      exact ⟨t :: before, t', after, x, rfl, List.forall_mem_cons.mpr ⟨hfinite, hbefore⟩, hx, rfl,
        rfl⟩

end Annotations

/-- If the bounds cannot all be written, the writer fails with the first that is refused. The bounds
that come before it are in the fragment then, where annotations give them, and the rest of the
fragment is what it was. -/
theorem left_of_refused {as : Annotations} {draft draft' : Draft} {e : Failure}
    (h : as.writeNumberConstraints draft = .error e draft') :
    ∃ t x, as.Refused t x ∧ e = .schema (.nonFiniteBound t.keyword x) ∧
      as.Wrote t.earlier draft.fragment draft'.fragment ∧ draft'.registry = draft.registry := by
  obtain ⟨before, t, after, x, hts, hbefore, hx, rfl, rfl⟩ := Annotations.bounds_run_error h
  refine ⟨t, x, ⟨hx, before, after, hts, hbefore⟩, rfl, ?_, rfl⟩
  rw [Bound.earlier_of_eq hts]
  exact as.wrote_write before draft.fragment

/-- A lower bound, and an upper one that is refused. -/
def halfBounded : Annotations := [.boundDouble .maximum .nan, .bound .minimum 1]

/-- A fragment with both bounds. -/
def bounded : Draft := { fragment := Table.ofList [("minimum", .int 0), ("maximum", .int 5)] }

theorem left_of_refused_halfBounded :
    ∃ draft', halfBounded.writeNumberConstraints bounded =
        .error (.schema (.nonFiniteBound "maximum" .nan)) draft' ∧
      halfBounded.Wrote [.minimum] bounded.fragment draft'.fragment := by
  obtain ⟨draft', hrun⟩ : ∃ draft', halfBounded.writeNumberConstraints bounded =
      .error (.schema (.nonFiniteBound "maximum" .nan)) draft' := ⟨_, rfl⟩
  obtain ⟨t, x, _, herror, hwrote, _⟩ := left_of_refused hrun
  have hkeyword : "maximum" = t.keyword := by
    injection herror with herror
    injection herror
  obtain rfl : Bound.maximum = t :=
    SiteKeyword.bound.inj (SiteKeyword.name_injective (k := .bound .maximum) hkeyword)
  exact ⟨draft', hrun, hwrote⟩

/-- The fragment is not always left as it was: the lower bound stays in it. -/
theorem bound_left_behind : ¬ ∀ (as : Annotations) (draft draft' : Draft) (keyword : String)
    (x : Double), as.writeNumberConstraints draft =
      .error (.schema (.nonFiniteBound keyword x)) draft' → draft'.fragment = draft.fragment := by
  intro h
  have hsame := h halfBounded {} _ "maximum" .nan rfl
  cases hsame

end TypeSchema
