/-
  What is wrong with a descriptor.

  A descriptor has a defect if no fragment can be made of it whatever its parts are: it is
  contextual, a hierarchy without variants or a map with keys that are not strings, or it has not
  the elements that its kind calls for. `Defect g x e` also says which error tells of it. A use has
  parts exactly if its descriptor has no defect, apart from the fuel that looking through the
  wrappers of a key takes (`defect_of_parts`, `not_offending_of_parts`).
-/
import TypeSchema.Proofs.Termination

namespace TypeSchema

variable {N : Type} {g : Graph N}

/-! ## Defects -/

/-- The descriptors that the fragment of `d` is made from, at any depth. -/
def Needed (g : Graph N) : Descriptor N → Descriptor N → Prop := Relation.ReflTransGen (Needs g)

/-- The value `c` is inside the wrapper `w`. -/
def Holds (g : Graph N) (w c : Descriptor N) : Prop := w.kind = .wrapper ∧ Needs g w c

/-- What is found by looking through any number of wrappers. -/
def LooksTo (g : Graph N) : Descriptor N → Descriptor N → Prop := Relation.ReflTransGen (Holds g)

/-- The elements are too few or too many for the kind. -/
inductive Malformed (x : Descriptor N) : SchemaError → Prop
  | list : x.kind = .list → x.elements.length ≠ 1 → Malformed x
    (.wrongElements x.serialName "list must have exactly one element" x.elements.length)
  | map : x.kind = .map → x.elements.length ≠ 2 → Malformed x
    (.wrongElements x.serialName "map must have exactly two elements" x.elements.length)
  | wrapper : x.kind = .wrapper → x.elements.length ≠ 1 → Malformed x
    (.wrongElements x.serialName "inline wrapper must have exactly one element" x.elements.length)

/-- What is wrong with a descriptor by itself, and the error that says so. -/
inductive Defect (g : Graph N) (x : Descriptor N) : SchemaError → Prop
  | contextual : x.kind = .contextual → Defect g x (.contextualUnsupported x.serialName)
  | noVariants {h : Hierarchy} : x.kind = .polymorphic h → x.elements = [] →
    Defect g x (.noVariants x.serialName)
  | malformed {e : SchemaError} : Malformed x e → Defect g x e
  | key {key value : Element N} {k : Descriptor N} : x.kind = .map → x.elements = [key, value] →
    LooksTo g (key.child g) k → k.kind ≠ .wrapper → k.kind ≠ .primitive .string →
    Defect g x (.unsupportedMapKey x.serialName k.serialName)
  /-- The wrapper that the key meets is to blame. -/
  | wrappedKey {key value : Element N} {w : Descriptor N} {e : SchemaError} : x.kind = .map →
    x.elements = [key, value] → LooksTo g (key.child g) w → w.kind = .wrapper → Malformed w e →
    Defect g x e

def Offending (g : Graph N) (x : Descriptor N) : Prop := ∃ e, Defect g x e

/-- The descriptor, and what it is called where it is made nullable or not nullable. -/
def Descriptor.forms (x : Descriptor N) : List (Descriptor N) := [x, x.intoNullable, x.nonNullable]

/-! ## Outlines -/

theorem Descriptor.outline_of_mem_forms {x y : Descriptor N} (h : y ∈ x.forms) :
    y.outline = x.outline := by
  unfold forms at h
  simp only [List.mem_cons, List.not_mem_nil, or_false] at h
  rcases h with rfl | rfl | rfl
  · rfl
  · exact x.outline_intoNullable
  · exact x.outline_nonNullable

theorem Descriptor.mem_forms_of_or {x y : Descriptor N} (h : y = x ∨ y = x.intoNullable) :
    y ∈ x.forms := by
  unfold forms
  rcases h with rfl | rfl
  · exact List.mem_cons_self
  · exact List.mem_cons_of_mem _ List.mem_cons_self

theorem Descriptor.nonNullable_mem_forms {x y : Descriptor N} (h : y = x ∨ y = x.intoNullable) :
    y.nonNullable ∈ x.forms := by
  have hself : x.nonNullable ∈ x.forms :=
    List.mem_cons_of_mem _ (List.mem_cons_of_mem _ List.mem_cons_self)
  rcases h with rfl | rfl
  · exact hself
  · cases hn : x.nullable with
    | true =>
      have hnullable : x.intoNullable = x := by
        unfold intoNullable
        rw [if_pos hn]
      rw [hnullable]
      exact hself
    | false =>
      rw [nonNullable_intoNullable hn]
      exact List.mem_cons_self

theorem Malformed.of_outline {x y : Descriptor N} {e : SchemaError} (h : x.outline = y.outline)
    (hx : Malformed x e) : ∃ e', Malformed y e' := by
  have hkind := Descriptor.kind_eq_of_outline h
  have hlength : x.elements.length = y.elements.length := by
    have hes := congrArg List.length (Descriptor.elements_eq_of_outline h)
    rwa [List.length_map, List.length_map] at hes
  cases hx with
  | list hk hne => exact ⟨_, .list (hkind ▸ hk) (hlength ▸ hne)⟩
  | map hk hne => exact ⟨_, .map (hkind ▸ hk) (hlength ▸ hne)⟩
  | wrapper hk hne => exact ⟨_, .wrapper (hkind ▸ hk) (hlength ▸ hne)⟩

/-- Whether a descriptor has a defect does not depend on its name, nor on what annotates it. -/
theorem Offending.of_outline {x y : Descriptor N} (h : x.outline = y.outline)
    (hx : Offending g x) : Offending g y := by
  have hkind := Descriptor.kind_eq_of_outline h
  obtain ⟨e, he⟩ := hx
  cases he with
  | contextual hk => exact ⟨_, .contextual (hkind ▸ hk)⟩
  | noVariants hk hes =>
    have hes' := Descriptor.elements_eq_of_outline h
    rw [hes, List.map_nil] at hes'
    exact ⟨_, .noVariants (hkind ▸ hk) (List.map_eq_nil_iff.mp hes'.symm)⟩
  | malformed hm =>
    obtain ⟨e', hm'⟩ := hm.of_outline h
    exact ⟨e', .malformed hm'⟩
  | key hk hes hlook hw hstring =>
    obtain ⟨key', value', hes', hbare, _⟩ := Descriptor.elements_eq_pair h hes
    rw [← Element.child_eq_of_bare g hbare] at hlook
    exact ⟨_, .key (hkind ▸ hk) hes' hlook hw hstring⟩
  | wrappedKey hk hes hlook hw hm =>
    obtain ⟨key', value', hes', hbare, _⟩ := Descriptor.elements_eq_pair h hes
    rw [← Element.child_eq_of_bare g hbare] at hlook
    exact ⟨_, .wrappedKey (hkind ▸ hk) hes' hlook hw hm⟩

/-! ## Parts of descriptors with a defect -/

section

variable {α β : Type} {ε ε' : Type} {e : ε}

theorem except_bind_eq_error {x : Except ε α} {k : α → Except ε β} :
    (x >>= k) = .error e ↔ x = .error e ∨ ∃ a, x = .ok a ∧ k a = .error e := by
  cases x with
  | ok a => simp [bind, Except.bind]
  | error e => simp [bind, Except.bind]

theorem except_map_eq_error {x : Except ε α} {f : α → β} :
    x.map f = .error e ↔ x = .error e := by
  cases x with
  | ok a => simp [Except.map]
  | error e => simp [Except.map]

theorem except_mapError_schema {x : Except SchemaError α} {e : SchemaError} :
    x.mapError Failure.schema = .error (.schema e) ↔ x = .error e := by
  cases x with
  | ok a => simp [Except.mapError]
  | error e => simp [Except.mapError]

end

namespace Malformed

variable {x : Descriptor N} {e : SchemaError}

theorem of_listItem (hk : x.kind = .list) (h : x.listItem = .error e) : Malformed x e := by
  unfold Descriptor.listItem at h
  split at h
  · cases h
  · next hne =>
    cases h
    refine .list hk fun hlength => ?_
    obtain ⟨item, hes⟩ := List.length_eq_one_iff.mp hlength
    exact hne item hes

theorem of_mapEntries (hk : x.kind = .map) (h : x.mapEntries = .error e) : Malformed x e := by
  unfold Descriptor.mapEntries at h
  split at h
  · cases h
  · next hne =>
    cases h
    refine .map hk fun hlength => ?_
    obtain ⟨key, value, hes⟩ := List.length_eq_two.mp hlength
    exact hne key value hes

theorem of_wrapped (hk : x.kind = .wrapper) (h : x.wrapped = .error e) : Malformed x e := by
  unfold Descriptor.wrapped at h
  split at h
  · cases h
  · next hne =>
    cases h
    refine .wrapper hk fun hlength => ?_
    obtain ⟨value, hes⟩ := List.length_eq_one_iff.mp hlength
    exact hne value hes

end Malformed

/-- Whatever has parts has the elements that its kind calls for. -/
theorem Parts.not_malformed {u : Use N} {us : List (Use N)} (h : Parts g u us) (e : SchemaError) :
    ¬ Malformed u.descriptor e := by
  intro hm
  cases hm with
  | list hk hne =>
    obtain ⟨item, hes, _⟩ := h.of_list hk
    exact hne (by rw [hes]; rfl)
  | map hk hne =>
    obtain ⟨key, value, hes, _⟩ := h.of_map hk
    exact hne (by rw [hes]; rfl)
  | wrapper hk hne =>
    obtain ⟨value, hes, _⟩ := h.of_wrapper hk
    exact hne (by rw [hes]; rfl)

/-! ## Looking through wrappers -/

section

variable {n : Nat} {x y k : Descriptor N} {e : SchemaError}

theorem innermost_of_wrapper (hk : x.kind = .wrapper) (h : x.innermost g n = .ok k) :
    ∃ m value, x.elements = [value] ∧ (value.child g).innermost g m = .ok k := by
  have hw : x.isWrapper = true := Descriptor.isWrapper_iff.mpr hk
  cases n with
  | zero =>
    rw [Descriptor.innermost, if_pos hw] at h
    cases h
  | succ n =>
    rw [Descriptor.innermost, if_pos hw] at h
    split at h
    · next value hvalue => exact ⟨n, value, Use.wrapped_eq_ok.mp hvalue, h⟩
    · cases h

/-- All that is looked to on the way leads to the same descriptor. -/
theorem innermost_of_looksTo (h : LooksTo g x y) (hx : x.innermost g n = .ok k) :
    ∃ m, y.innermost g m = .ok k := by
  induction h with
  | refl => exact ⟨n, hx⟩
  | tail _ hstep ih =>
    obtain ⟨m, hm⟩ := ih
    obtain ⟨hk, hneeds⟩ := hstep
    obtain ⟨m', value, hes, hm'⟩ := innermost_of_wrapper hk hm
    cases hneeds with
    | inner _ hes' =>
      obtain rfl := List.singleton_inj.mp (hes.symm.trans hes')
      exact ⟨m', hm'⟩
    | _ => simp_all

theorem looksTo_of_innermost (h : x.innermost g n = .ok k) :
    LooksTo g x k ∧ k.kind ≠ .wrapper := by
  induction n generalizing x with
  | zero =>
    rw [Descriptor.innermost] at h
    split at h
    · cases h
    · next hw =>
      cases h
      exact ⟨.refl, fun hk => hw (Descriptor.isWrapper_iff.mpr hk)⟩
  | succ n ih =>
    rw [Descriptor.innermost] at h
    split at h
    · next hw =>
      split at h
      · next value hvalue =>
        obtain ⟨hlook, hk⟩ := ih h
        have hholds : Holds g x (value.child g) :=
          ⟨Descriptor.isWrapper_iff.mp hw,
            .inner (Descriptor.isWrapper_iff.mp hw) (Use.wrapped_eq_ok.mp hvalue)⟩
        exact ⟨.head hholds hlook, hk⟩
      · cases h
    · next hw =>
      cases h
      exact ⟨.refl, fun hk => hw (Descriptor.isWrapper_iff.mpr hk)⟩

/-- Looking through wrappers fails at one that is malformed. -/
theorem looksTo_of_innermost_error (h : x.innermost g n = .error (.schema e)) :
    ∃ w, LooksTo g x w ∧ w.kind = .wrapper ∧ Malformed w e := by
  induction n generalizing x with
  | zero =>
    rw [Descriptor.innermost] at h
    split at h
    · cases h
    · cases h
  | succ n ih =>
    rw [Descriptor.innermost] at h
    split at h
    · next hw =>
      have hk := Descriptor.isWrapper_iff.mp hw
      split at h
      · next value hvalue =>
        obtain ⟨w, hlook, hw⟩ := ih h
        exact ⟨w, .head ⟨hk, .inner hk (Use.wrapped_eq_ok.mp hvalue)⟩ hlook, hw⟩
      · next hvalue =>
        cases h
        exact ⟨x, .refl, hk, .of_wrapped hk hvalue⟩
    · cases h

theorem LooksTo.needed (h : LooksTo g x y) : Needed g x y :=
  Relation.ReflTransGen.mono (fun _ _ hstep => hstep.2) x y h

end

/-! ## Parts -/

section

variable {n : Nat} {u : Use N} {us : List (Use N)} {e : SchemaError}

/-- A use has no parts only if its descriptor has a defect. -/
theorem defect_of_parts (h : u.parts g n = .error (.schema e)) : Defect g u.descriptor e := by
  unfold Use.parts at h
  split at h
  · next hw =>
    rw [except_map_eq_error, except_mapError_schema] at h
    exact .malformed (.of_wrapped (Descriptor.isWrapper_iff.mp hw) h)
  next hw =>
  unfold Descriptor.parts at h
  split at h
  · cases h
  · cases h
  · cases h
  · cases h
  · next hk =>
    rw [except_map_eq_error, except_mapError_schema] at h
    exact .malformed (.of_listItem hk h)
  · next hk =>
    rw [except_map_eq_error] at h
    unfold Descriptor.stringKeyedValue at h
    rcases except_bind_eq_error.mp h with h | ⟨⟨key, value⟩, hentries, h⟩
    · rw [except_mapError_schema] at h
      exact .malformed (.of_mapEntries hk h)
    rw [except_mapError_eq_ok] at hentries
    have hes := Descriptor.mapEntries_eq_ok hentries
    rcases except_bind_eq_error.mp h with h | ⟨k, hkey, h⟩
    · obtain ⟨w, hlook, hw, hm⟩ := looksTo_of_innermost_error h
      exact .wrappedKey hk hes hlook hw hm
    · obtain ⟨hlook, hkw⟩ := looksTo_of_innermost hkey
      split at h
      · cases h
      · next hstring =>
        cases h
        exact .key hk hes hlook hkw hstring
  · next h' hk =>
    split at h
    · next hes =>
      cases h
      exact .noVariants hk (List.isEmpty_iff.mp hes)
    · cases h
  · next hk =>
    cases h
    exact .contextual hk
  · next hk => exact absurd (Descriptor.isWrapper_iff.mpr hk) hw

theorem not_offending_of_parts (h : u.parts g n = .ok us) : ¬ Offending g u.descriptor := by
  obtain ⟨hparts, henc⟩ := parts_eq_ok_iff.mp h
  intro hu
  obtain ⟨e, he⟩ := hu
  cases he with
  | contextual hk => cases hparts <;> simp_all
  | noVariants hk hes => exact henc.variants _ hk hes
  | malformed hm => exact hparts.not_malformed _ hm
  | @key _ _ k hk hes hlook hkw hstring =>
    obtain ⟨k', hkey, hstring'⟩ := henc.key hk _ _ hes
    obtain ⟨m, hm⟩ := innermost_of_looksTo hlook hkey
    rw [innermost_of_not_wrapper (Descriptor.isWrapper_eq_false hkw)] at hm
    obtain rfl := Except.ok.inj hm
    exact hstring hstring'
  | wrappedKey hk hes hlook hw hm =>
    obtain ⟨k, hkey, _⟩ := henc.key hk _ _ hes
    obtain ⟨m, hm'⟩ := innermost_of_looksTo hlook hkey
    obtain ⟨_, value, hes', _⟩ := innermost_of_wrapper hw hm'
    cases hm with
    | wrapper _ hne => exact hne (by rw [hes']; rfl)
    | _ => simp_all

/-- Whatever is needed for a descriptor is among the parts of its uses. -/
theorem exists_part_of_needs {c : Descriptor N} (h : Parts g u us) (hc : Needs g u.descriptor c) :
    ∃ v ∈ us, v.descriptor = c ∨ v.descriptor = c.intoNullable := by
  cases hc with
  | property hk he =>
    rw [h.of_record hk]
    exact ⟨_, List.mem_map_of_mem he, Or.inl rfl⟩
  | item hk hes =>
    obtain ⟨item, hes', rfl⟩ := h.of_list hk
    obtain rfl := List.singleton_inj.mp (hes.symm.trans hes')
    exact ⟨_, List.mem_singleton_self _, Or.inl rfl⟩
  | value hk hes =>
    obtain ⟨key, value, hes', rfl⟩ := h.of_map hk
    obtain ⟨rfl, htail⟩ := List.cons_eq_cons.mp (hes.symm.trans hes')
    obtain rfl := List.singleton_inj.mp htail
    exact ⟨_, List.mem_singleton_self _, Or.inl rfl⟩
  | variant hk he =>
    rw [h.of_polymorphic hk]
    exact ⟨_, List.mem_map_of_mem he, Or.inl rfl⟩
  | inner hk hes =>
    obtain ⟨value, hes', rfl⟩ := h.of_wrapper hk
    obtain rfl := List.singleton_inj.mp (hes.symm.trans hes')
    exact ⟨_, List.mem_singleton_self _, Descriptor.passNullable_eq_or _ _⟩

end

end TypeSchema
