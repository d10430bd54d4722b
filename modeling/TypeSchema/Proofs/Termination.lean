/-
  When a build ends.

  A finite graph gives a call only finitely many keys to ask for, and each definition is built
  while one more of them is registered. Between two definitions the build follows children of
  descriptors that ask for nothing, where there is no cycle. So the keys that are missing from
  the registry, and below them the descriptors within reach, are a measure of what is left to do
  (`exists_fuel`). Looking through wrappers ends for a reason of its own (`exists_innermost`).
-/
import Mathlib.Data.Finset.Lattice.Fold
import TypeSchema.Proofs.PlainName
import TypeSchema.Proofs.Reach

namespace TypeSchema

variable {N : Type} {g : Graph N} {α β : Type}

/-- The step to a child from a descriptor whose own annotations ask for no definition. -/
def UncutChild (g : Graph N) (x y : Descriptor N) : Prop :=
  x.annotations.hasRef = false ∧ Child g x y

/-- The step to a child from a wrapper. -/
def WrapperChild (g : Graph N) (x y : Descriptor N) : Prop :=
  x.isWrapper = true ∧ Child g x y

/-- Finitely many descriptors, where each cycle is cut by a request for a definition, and none
goes through wrappers only. -/
structure FinitelyCut (g : Graph N) (d : Descriptor N) : Prop where
  finite : {x | Reaches g d x}.Finite
  cut : ∀ x, Reaches g d x → ¬ Relation.TransGen (UncutChild g) x x
  unwrapped : ∀ x, Reaches g d x → ¬ Relation.TransGen (WrapperChild g) x x

/-! ## Runs that do not run out of fuel -/

/-- From the registry `r`, the build gives an answer or fails for a reason. -/
def Halts (b : Build α) (r : Registry) : Prop := ∀ r', b r ≠ .error .outOfFuel r'

namespace Halts

theorem pure (a : α) (r : Registry) : Halts (pure a : Build α) r := fun _ h => by cases h

theorem ofExcept {x : Except Failure α} (h : x ≠ .error .outOfFuel) (r : Registry) :
    Halts (Build.ofExcept x) r := by
  intro r' hr
  cases x with
  | ok a => cases hr
  | error e =>
    cases hr
    exact h rfl

theorem bind {b : Build α} {k : α → Build β} {r : Registry} (h : Halts b r)
    (hk : ∀ a r₁, b r = .ok a r₁ → Halts (k a) r₁) : Halts (b >>= k) r := by
  intro r' hr
  rw [bind_run] at hr
  cases hb : b r with
  | ok a r₁ =>
    rw [hb] at hr
    exact hk a r₁ hb r' hr
  | error e r₁ =>
    rw [hb] at hr
    cases hr
    exact h r' hb

/-- Building one after the other, while the registry stays in a set that each build keeps. -/
theorem mapM {b : α → Build β} {as : List α} {I : Registry → Prop}
    (h : ∀ a ∈ as, ∀ r, I r → Halts (b a) r)
    (hI : ∀ a r c r', I r → b a r = .ok c r' → I r') {r : Registry} (hr : I r) :
    Halts (as.mapM b) r := by
  induction as generalizing r with
  | nil => exact pure [] r
  | cons a as ih =>
    obtain ⟨ha, has⟩ := List.forall_mem_cons.mp h
    rw [List.mapM_cons]
    refine (ha r hr).bind fun c r₁ hc => ?_
    exact (ih has (hI a r c r₁ hr hc)).bind fun _ _ _ => pure _ _

theorem request {key : String} {nullable : Bool} {b : Build Object} {r : Registry}
    (h : r.contains key = false → Halts b (r.insert key .pending)) :
    Halts (request key nullable (some b)) r := by
  intro r' hr
  by_cases hc : r.contains key = true
  · rw [request_known hc] at hr
    cases hr
  · have hc' : r.contains key = false := by simpa using hc
    rw [request_unknown_some hc'] at hr
    cases hb : b (r.insert key .pending) with
    | ok t r₁ => rw [hb] at hr; cases hr
    | error e r₁ =>
      rw [hb] at hr
      cases hr
      exact h hc' r' hb

theorem build_mono {n m : Nat} (hnm : n ≤ m) {u : Use N} {r : Registry}
    (h : Halts (u.build g n) r) : Halts (u.build g m) r := by
  intro r' hr
  rw [Use.build_mono g hnm h] at hr
  exact h r' hr

end Halts

/-! ## The keys that are left -/

/-- The keys that annotations ask for by name. -/
def Annotations.keys (as : Annotations) : List String :=
  as.filterMap fun
    | .ref key => some key
    | _ => none

/-- The keys that a descriptor can be asked for under, and those that it asks for. -/
def Descriptor.keys (d : Descriptor N) : List String :=
  d.variantName :: d.annotations.keys ++ d.elements.flatMap (·.annotations.keys)

/-- The keys of `K` that the registry does not have. -/
def missing (K : Finset String) (r : Registry) : Finset String :=
  K.filter fun key => r.contains key = false

theorem missing_insert_lt {K : Finset String} {r : Registry} {key : String} (hk : key ∈ K)
    (hc : r.contains key = false) (entry : Entry) :
    (missing K (r.insert key entry)).card < (missing K r).card := by
  refine Finset.card_lt_card ⟨fun k hk' => ?_, fun hsub => ?_⟩
  · obtain ⟨hkK, hnew⟩ := Finset.mem_filter.mp hk'
    rw [Registry.contains_insert, Bool.or_eq_false_iff] at hnew
    exact Finset.mem_filter.mpr ⟨hkK, hnew.2⟩
  · have hmem := hsub (Finset.mem_filter.mpr ⟨hk, hc⟩)
    have hcontains := (Finset.mem_filter.mp hmem).2
    rw [Registry.contains_insert_self] at hcontains
    cases hcontains

/-- A registry that knows more is missing no more. -/
theorem missing_le (K : Finset String) {r r' : Registry}
    (h : ∀ key, r.contains key = true → r'.contains key = true) :
    (missing K r').card ≤ (missing K r).card := by
  refine Finset.card_le_card fun key hkey => ?_
  obtain ⟨hK, hc⟩ := Finset.mem_filter.mp hkey
  refine Finset.mem_filter.mpr ⟨hK, ?_⟩
  by_contra hr
  rw [h key (by simpa using hr)] at hc
  cases hc

/-- A build that succeeds leaves no more keys missing than it found. -/
theorem missing_build_le (K : Finset String) {n : Nat} {u : Use N} {f : Object}
    {r r' : Registry} (h : u.build g n r = .ok f r') :
    (missing K r').card ≤ (missing K r).card :=
  missing_le K fun _ hc => (builds_of_build h).contains_of_contains hc

theorem Annotations.mem_keys {as : Annotations} {key : String} :
    key ∈ as.keys ↔ .ref key ∈ as := by
  unfold keys
  rw [List.mem_filterMap]
  constructor
  · intro h
    obtain ⟨a, ha, hkey⟩ := h
    cases a with
    | ref key' =>
      cases hkey
      exact ha
    | _ => cases hkey
  · exact fun h => ⟨_, h, rfl⟩

theorem Annotations.keys_append (as bs : Annotations) : (as ++ bs).keys = as.keys ++ bs.keys :=
  List.filterMap_append

theorem Annotations.keys_withoutRefs (as : Annotations) : as.withoutRefs.keys = [] := by
  refine List.filterMap_eq_nil_iff.mpr fun a ha => ?_
  have hnot := (List.mem_filter.mp ha).2
  cases a with
  | ref key => cases hnot
  | _ => rfl

/-- A use asks for a key that its annotations name, or for the name of its type. -/
theorem Use.key?_mem {u : Use N} {key : String} (h : u.key? = some key) :
    key ∈ u.inherited.keys ++ u.descriptor.keys := by
  have hname : (u.inherited ++ u.descriptor.annotations).refName? u.descriptor.serialName
      u.descriptor.nullable = some key := by
    unfold key? Descriptor.requestedKey? at h
    split at h
    · cases h
    · exact h
  obtain ⟨a, ha, hkey⟩ := List.exists_of_findSome?_eq_some hname
  have hmem : ∀ k, .ref k ∈ u.inherited ++ u.descriptor.annotations →
      k ∈ u.inherited.keys ++ u.descriptor.annotations.keys := by
    intro k hk
    rw [← Annotations.keys_append]
    exact Annotations.mem_keys.mpr hk
  unfold Descriptor.keys
  cases a with
  | ref k =>
    cases hkey
    rcases List.mem_append.mp (hmem _ ha) with hk | hk
    · exact List.mem_append_left _ hk
    · refine List.mem_append_right _ (List.mem_cons_of_mem _ ?_)
      exact List.mem_append_left _ hk
  | refBySerialName =>
    obtain ⟨s, hs⟩ := u.descriptor.exists_plainName
    obtain rfl : s = key := Option.some.inj (hs.refName?.symm.trans hkey)
    rw [hs.variantName]
    exact List.mem_append_right _ List.mem_cons_self
  | _ => cases hkey

theorem Descriptor.keys_intoNullable (d : Descriptor N) : d.intoNullable.keys = d.keys := by
  unfold keys
  rw [variantName_intoNullable]
  unfold intoNullable
  split <;> rfl

theorem Use.keys_definition_subset (u : Use N) :
    u.definition.descriptor.keys ⊆ u.descriptor.keys := by
  unfold definition
  split
  · have hes : ∀ es : List (Element N),
        (es.map (·.withoutRefs)).flatMap (·.annotations.keys) = [] := by
      intro es
      refine List.flatMap_eq_nil_iff.mpr fun e he => ?_
      obtain ⟨e', _, rfl⟩ := List.mem_map.mp he
      exact Annotations.keys_withoutRefs _
    have hkeys : u.descriptor.nonNullable.withoutRefs.keys = [u.descriptor.variantName] := by
      have hname : u.descriptor.nonNullable.withoutRefs.variantName = u.descriptor.variantName :=
        Descriptor.variantName_nonNullable _
      unfold Descriptor.keys
      rw [hname]
      unfold Descriptor.withoutRefs
      rw [Annotations.keys_withoutRefs, hes]
      rfl
    rw [hkeys]
    exact List.cons_subset.mpr ⟨List.mem_cons_self, List.nil_subset _⟩
  · have hkeys : u.descriptor.nonNullable.keys = u.descriptor.keys := by
      unfold Descriptor.keys
      rw [Descriptor.variantName_nonNullable, annotations_nonNullable, elements_nonNullable]
    rw [hkeys]
    exact List.Subset.refl _

/-- A part inherits requests from the use and from the elements, from nowhere else. -/
theorem keys_inherited_subset {u v : Use N} {us : List (Use N)} (h : Parts g u us) (hv : v ∈ us) :
    v.inherited.keys ⊆ u.inherited.keys ++ u.descriptor.keys := by
  intro key hkey
  rw [Annotations.mem_keys] at hkey
  rcases mem_inherited_of_parts h hv hkey with hkey | hkey | ⟨e, he, hkey⟩
  · exact List.mem_append_left _ (Annotations.mem_keys.mpr hkey)
  · refine List.mem_append_right _ (List.mem_cons_of_mem _ ?_)
    exact List.mem_append_left _ (Annotations.mem_keys.mpr hkey)
  · refine List.mem_append_right _ (List.mem_append_right _ ?_)
    exact List.mem_flatMap.mpr ⟨e, he, Annotations.mem_keys.mpr hkey⟩

/-! ## Looking through wrappers -/

/-- Bounds for the points of a finite set have a common one. -/
theorem exists_bound_of_finite {α : Type} {S : Set α} (hfin : S.Finite) {P : α → Nat → Prop}
    (h : ∀ x ∈ S, ∃ n, ∀ m ≥ n, P x m) : ∃ n, ∀ x ∈ S, ∀ m ≥ n, P x m := by
  have hall : ∀ x, ∃ n, x ∈ S → ∀ m ≥ n, P x m := by
    intro x
    by_cases hx : x ∈ S
    · obtain ⟨n, hn⟩ := h x hx
      exact ⟨n, fun _ => hn⟩
    · exact ⟨0, fun hx' => absurd hx' hx⟩
  choose bound hbound using hall
  refine ⟨hfin.toFinset.sup bound, fun x hx m hm => hbound x hx m ?_⟩
  exact (Finset.le_sup (hfin.mem_toFinset.mpr hx)).trans hm

theorem innermost_of_not_wrapper {x : Descriptor N} (h : x.isWrapper = false) (n : Nat) :
    x.innermost g n = .ok x := by
  cases n with
  | zero => rw [Descriptor.innermost, h]; rfl
  | succ n => rw [Descriptor.innermost, h]; rfl

/-- Looking through a wrapper ends if it ends for the value inside. -/
theorem exists_innermost_of_inside {x : Descriptor N}
    (h : ∀ value, x.isWrapper = true → x.elements = [value] →
      ∃ n, ∀ m ≥ n, (value.child g).innermost g m ≠ .error .outOfFuel) :
    ∃ n, ∀ m ≥ n, x.innermost g m ≠ .error .outOfFuel := by
  by_cases hw : x.isWrapper = true
  · cases hv : x.wrapped with
    | error e =>
      refine ⟨1, fun m hm => ?_⟩
      obtain ⟨k, rfl⟩ : ∃ k, m = k + 1 := ⟨m - 1, by omega⟩
      rw [Descriptor.innermost, if_pos hw, hv]
      simp
    | ok value =>
      obtain ⟨n, hn⟩ := h value hw (Use.wrapped_eq_ok.mp hv)
      refine ⟨n + 1, fun m hm => ?_⟩
      obtain ⟨k, rfl⟩ : ∃ k, m = k + 1 := ⟨m - 1, by omega⟩
      rw [Descriptor.innermost, if_pos hw, hv]
      exact hn k (by omega)
  · refine ⟨0, fun m _ => ?_⟩
    rw [innermost_of_not_wrapper (by simpa using hw)]
    simp

theorem exists_innermost {d : Descriptor N} (h : FinitelyCut g d) :
    ∃ n, ∀ x, Reaches g d x → ∀ m ≥ n, x.innermost g m ≠ .error .outOfFuel := by
  refine exists_bound_of_finite h.finite ?_
  refine induction_of_acyclic (r := WrapperChild g) h.finite
    (fun x hx y hy => hx.tail hy.2) h.unwrapped fun x hx ih => ?_
  refine exists_innermost_of_inside fun value hw hes => ?_
  exact ih (value.child g) ⟨hw, value, by simp [hes], rfl⟩

theorem finish_ne_outOfFuel (u : Use N) (us : List (Use N)) (fs : List Object) :
    u.finish us fs ≠ .error .outOfFuel := by
  unfold Use.finish
  split
  · simp
  · unfold Descriptor.finish
    cases (u.inherited ++ u.descriptor.annotations).check u.descriptor.kind.constraints with
    | ok _ => intro h; cases h
    | error e => intro h; cases h

theorem guard_ne_outOfFuel (u : Use N) : u.guard ≠ .error .outOfFuel := by
  unfold Use.guard
  split
  · cases u.descriptor.wrapped with
    | ok _ => intro h; cases h
    | error e => intro h; cases h
  · simp

variable {n : Nat} {u : Use N}

theorem parts_ne_outOfFuel (h : ∀ c, Child g u.descriptor c → c.innermost g n ≠ .error .outOfFuel) :
    u.parts g n ≠ .error .outOfFuel := by
  unfold Use.parts
  split
  · cases u.descriptor.wrapped with
    | ok _ => intro h; cases h
    | error e => intro h; cases h
  · unfold Descriptor.parts
    split
    · simp
    · simp
    · simp
    · simp
    · cases u.descriptor.listItem with
      | ok _ => intro h; cases h
      | error e => intro h; cases h
    · unfold Descriptor.stringKeyedValue
      cases hm : u.descriptor.mapEntries with
      | error e => intro h; cases h
      | ok entries =>
        obtain ⟨key, value⟩ := entries
        have hes := Descriptor.mapEntries_eq_ok hm
        have hkey := h (key.child g) ⟨key, by simp [hes], rfl⟩
        change Except.map _ ((key.child g).innermost g n >>= _) ≠ _
        cases hi : (key.child g).innermost g n with
        | error e =>
          intro h
          cases h
          exact hkey hi
        | ok k =>
          change Except.map _ (ite _ _ _) ≠ _
          split
          · intro h; cases h
          · intro h; cases h
    · split
      · simp
      · simp
    · simp
    · simp

theorem pointer_ne_outOfFuel {key : String}
    (h : ∀ c, Child g u.descriptor c → c.innermost g n ≠ .error .outOfFuel) :
    u.pointer g n key ≠ .error .outOfFuel := by
  have htarget : u.target g n ≠ .error .outOfFuel := by
    unfold Use.target
    split
    · cases hv : u.descriptor.wrapped with
      | error e => intro h; cases h
      | ok value =>
        exact h (value.child g) ⟨value, by simp [Use.wrapped_eq_ok.mp hv], rfl⟩
    · simp
  unfold Use.pointer
  cases ht : u.target g n with
  | error e =>
    intro h
    cases h
    exact htarget ht
  | ok target =>
    change Except.mapError _ _ >>= _ ≠ _
    cases u.inherited.check target.kind.constraints with
    | ok _ => intro h; cases h
    | error e => intro h; cases h

/-! ## The measure -/

/-- A use of `x`, nullable or not, that asks for keys of `K` only. -/
structure Asks (K : Finset String) (x : Descriptor N) (u : Use N) : Prop where
  descriptor : u.descriptor = x ∨ u.descriptor = x.intoNullable
  keys : ∀ key ∈ u.inherited.keys, key ∈ K

namespace Asks

variable {K : Finset String} {x : Descriptor N}

theorem outline (h : Asks K x u) : u.descriptor.outline = x.outline :=
  Descriptor.outline_eq_of_or h.descriptor

theorem descriptor_keys (h : Asks K x u) : u.descriptor.keys = x.keys := by
  rcases h.descriptor with hd | hd
  · rw [hd]
  · rw [hd, Descriptor.keys_intoNullable]

theorem hasRef (h : Asks K x u) (hk : u.key? = none) : x.annotations.hasRef = false := by
  have hann : u.descriptor.annotations = x.annotations := by
    rcases h.descriptor with hd | hd
    · rw [hd]
    · rw [hd, Descriptor.annotations_intoNullable]
  rw [← hann]
  unfold Use.key? Descriptor.requestedKey? at hk
  split at hk
  · next hw => simpa using (Bool.and_eq_true_iff.mp hw).2
  · have hall := Annotations.isSome_refName? (u.inherited ++ u.descriptor.annotations)
      u.descriptor.serialName u.descriptor.nullable
    rw [hk] at hall
    unfold Annotations.hasRef at hall ⊢
    rw [List.any_append] at hall
    exact (Bool.or_eq_false_iff.mp hall.symm).2

variable {d : Descriptor N} (hK : ∀ x, Reaches g d x → ∀ key ∈ x.keys, key ∈ K)
  (hx : Reaches g d x)

include hK hx

theorem key_mem (h : Asks K x u) {key : String} (hk : u.key? = some key) : key ∈ K := by
  rcases List.mem_append.mp (Use.key?_mem hk) with hk | hk
  · exact h.keys key hk
  · exact hK x hx key (h.descriptor_keys ▸ hk)

/-- What is built in place for a use, or for its definition, are uses of children. -/
theorem parts (h : Asks K x u) {w v : Use N} (hw : w = u ∨ w = u.definition) {us : List (Use N)}
    (hp : Parts g w us) (hv : v ∈ us) : ∃ c, Child g x c ∧ Asks K c v := by
  have hwkeys : ∀ key ∈ w.inherited.keys ++ w.descriptor.keys, key ∈ K := by
    have hukeys : ∀ key ∈ u.descriptor.keys, key ∈ K := fun key hkey =>
      hK x hx key (h.descriptor_keys ▸ hkey)
    intro key hkey
    rcases hw with rfl | rfl
    · exact (List.mem_append.mp hkey).elim (h.keys key) (hukeys key)
    · rw [Use.inherited_definition] at hkey
      exact hukeys key (u.keys_definition_subset hkey)
  have hwoutline : w.descriptor.outline = x.outline := by
    rcases hw with rfl | rfl
    · exact h.outline
    · exact u.outline_definition.trans h.outline
  obtain ⟨c, hc, hvc⟩ := child_of_parts hp hv
  refine ⟨c, hc.of_outline hwoutline, hvc, fun key hkey => ?_⟩
  exact hwkeys key (keys_inherited_subset hp hv hkey)

end Asks

section

variable {K : Finset String} {m F : Nat}

/-- If its parts can be built with some fuel, then so can the use in place, with one unit more. -/
theorem Halts.inPlace {w : Use N} (hparts : ∀ n ≥ F, w.parts g n ≠ .error .outOfFuel)
    (hus : ∀ us, Parts g w us → ∀ v ∈ us, ∀ r, (missing K r).card ≤ m → Halts (v.build g F) r)
    {n : Nat} (hn : F + 1 ≤ n) {r : Registry} (hr : (missing K r).card ≤ m) :
    Halts (w.inPlace g n) r := by
  have hassemble : ∀ k ≥ F, Halts (w.assemble g k) r := by
    intro k hk
    unfold Use.assemble
    refine (Halts.ofExcept (hparts k hk) r).bind fun us r₁ hok => ?_
    obtain ⟨hp, rfl⟩ := ofExcept_eq_ok.mp hok
    refine Halts.bind ?_ fun fs r₂ _ => .ofExcept (finish_ne_outOfFuel _ _ _) r₂
    refine Halts.mapM (I := fun r => (missing K r).card ≤ m) (fun v hv r hr => ?_) ?_ hr
    · exact (hus us (Parts.of_parts hp) v hv r hr).build_mono hk
    · exact fun v r f r' hr hf => (missing_build_le K hf).trans hr
  by_cases hw : w.descriptor.isWrapper = true
  · unfold Use.inPlace
    rw [if_pos hw]
    exact hassemble n (by omega)
  · obtain ⟨k, rfl⟩ : ∃ k, n = k + 1 := ⟨n - 1, by omega⟩
    rw [Use.inPlace_succ g k (by simpa using hw)]
    exact hassemble k (by omega)

variable {d : Descriptor N} {G : Nat} (hK : ∀ x, Reaches g d x → ∀ key ∈ x.keys, key ∈ K)
  (hG : ∀ x, Reaches g d x → ∀ n ≥ G, x.innermost g n ≠ .error .outOfFuel)

include hK hG

/-- A use that asks for a definition: while that is built one more key is registered. -/
theorem halts_keyed {x : Descriptor N} (hx : Reaches g d x) {u : Use N} (hu : Asks K x u)
    {key : String} (hk : u.key? = some key)
    (hfewer : ∀ c, Reaches g d c → ∀ v, Asks K c v → ∀ r, (missing K r).card < m →
      Halts (v.build g F) r)
    {n : Nat} (hn : G + F + 1 ≤ n) {r : Registry} (hr : (missing K r).card ≤ m) :
    Halts (u.build g (n + 1)) r := by
  have hinner : ∀ w : Use N, w.descriptor.outline = x.outline → ∀ n ≥ G, ∀ c,
      Child g w.descriptor c → c.innermost g n ≠ .error .outOfFuel :=
    fun w hw n hn c hc => hG c (hx.tail (hc.of_outline hw)) n hn
  rw [Use.build_keyed g n hk]
  refine (Halts.ofExcept (guard_ne_outOfFuel u) r).bind fun _ r₁ hguard => ?_
  obtain ⟨_, rfl⟩ := ofExcept_eq_ok.mp hguard
  refine Halts.bind (Halts.request fun hc => ?_) fun _ r₂ _ => ?_
  · have hlt := missing_insert_lt (hu.key_mem hK hx hk) hc .pending
    have hdefinition := u.outline_definition.trans hu.outline
    refine Halts.inPlace (m := (missing K (r.insert key .pending)).card) (F := G + F)
      (fun n hn => parts_ne_outOfFuel (hinner _ hdefinition n (by omega))) ?_ hn (Nat.le_refl _)
    intro us hp v hv r' hr'
    obtain ⟨c, hc, hvc⟩ := hu.parts hK hx (Or.inr rfl) hp hv
    exact (hfewer c (hx.tail hc) v hvc r' (by omega)).build_mono (by omega)
  · exact .ofExcept (pointer_ne_outOfFuel (hinner u hu.outline n (by omega))) r₂

/-- A use that asks for none: its parts are children of a descriptor that asks for none. -/
theorem halts_unkeyed {x : Descriptor N} (hx : Reaches g d x) {u : Use N} (hu : Asks K x u)
    (hk : u.key? = none)
    (hchildren : ∀ c, UncutChild g x c → ∀ v, Asks K c v → ∀ r, (missing K r).card ≤ m →
      Halts (v.build g F) r)
    {n : Nat} (hn : G + F + 1 ≤ n) {r : Registry} (hr : (missing K r).card ≤ m) :
    Halts (u.build g (n + 1)) r := by
  rw [Use.build_unkeyed g n hk]
  refine Halts.inPlace (F := G + F) (fun n hn => parts_ne_outOfFuel fun c hc => ?_) ?_ hn hr
  · exact hG c (hx.tail (hc.of_outline hu.outline)) n (by omega)
  · intro us hp v hv r' hr'
    obtain ⟨c, hc, hvc⟩ := hu.parts hK hx (Or.inl rfl) hp hv
    exact (hchildren c ⟨hu.hasRef hk, hc⟩ v hvc r' hr').build_mono (by omega)

/-- With few enough keys missing some fuel suffices for every use of a descriptor within reach,
whatever the registry holds. -/
theorem exists_fuel (h : FinitelyCut g d) (m : Nat) :
    ∃ F, ∀ x, Reaches g d x → ∀ n ≥ F, ∀ u, Asks K x u → ∀ r, (missing K r).card < m →
      Halts (u.build g n) r := by
  induction m with
  | zero => exact ⟨0, fun x hx n hn u hu r hr => absurd hr (Nat.not_lt_zero _)⟩
  | succ m ih =>
    obtain ⟨F, hF⟩ := ih
    refine exists_bound_of_finite h.finite ?_
    refine induction_of_acyclic (r := UncutChild g) h.finite
      (fun x hx y hy => hx.tail hy.2) h.cut fun x hx hbelow => ?_
    obtain ⟨B, hB⟩ := exists_bound_of_finite (h.finite.subset fun c (hc : UncutChild g x c) =>
      Relation.ReflTransGen.tail hx hc.2) hbelow
    refine ⟨G + F + B + 2, fun n hn u hu r hr => ?_⟩
    obtain ⟨k, rfl⟩ : ∃ k, n = k + 1 := ⟨n - 1, by omega⟩
    cases hk : u.key? with
    | none =>
      refine halts_unkeyed hK hG hx hu hk (F := B) (fun c hc v hv r hr => ?_) (by omega)
        (Nat.le_of_lt_succ hr)
      exact hB c hc B (Nat.le_refl B) v hv r (Nat.lt_succ_of_le hr)
    | some key =>
      exact halts_keyed hK hG hx hu hk (fun c hc v hv r hr => hF c hc F (Nat.le_refl F) v hv r hr)
        (by omega) (Nat.le_of_lt_succ hr)

end

/-- A call on a finite graph whose cycles are cut by requests for definitions, none of them going
through wrappers only, gives an answer, and keeps it however much more fuel there is. -/
theorem schemaOf_terminates {d : Descriptor N} (h : FinitelyCut g d) (seed : Annotations) :
    ∃ fuel answer, answer ≠ .error .outOfFuel ∧
      ∀ more ≥ fuel, Generator.schemaOf {} g more d seed = answer := by
  classical
  obtain ⟨G, hG⟩ := exists_innermost h
  let K : Finset String :=
    (seed.keys ++ h.finite.toFinset.toList.flatMap (·.keys)).toFinset
  have hK : ∀ x, Reaches g d x → ∀ key ∈ x.keys, key ∈ K := by
    intro x hx key hkey
    refine List.mem_toFinset.mpr (List.mem_append_right _ (List.mem_flatMap.mpr ⟨x, ?_, hkey⟩))
    exact Finset.mem_toList.mpr (h.finite.mem_toFinset.mpr hx)
  have hroot : Asks K d ⟨d, seed⟩ := by
    refine ⟨Or.inl rfl, fun key hkey => ?_⟩
    exact List.mem_toFinset.mpr (List.mem_append_left _ hkey)
  obtain ⟨F, hF⟩ := exists_fuel hK hG h ((missing K {}).card + 1)
  have hhalts := hF d .refl F (Nat.le_refl F) ⟨d, seed⟩ hroot {} (Nat.lt_succ_self _)
  refine ⟨F, Generator.schemaOf {} g F d seed, ?_, fun more hmore => ?_⟩
  · unfold Generator.schemaOf
    cases hb : Generator.build {} g F d seed {} with
    | ok f r => simp
    | error e r =>
      intro he
      cases he
      exact hhalts r hb
  · have hmono := Use.build_mono g hmore hhalts
    unfold Generator.schemaOf
    change Generator.build {} g more d seed {} = Generator.build {} g F d seed {} at hmono
    rw [hmono]

theorem finitelyCut_link : FinitelyCut linkGraph link := by
  have hall : ∀ x, Reaches linkGraph link x → x ∈ ({link} : Set (Descriptor Unit)) :=
    fun x hx => eq_link_of_reaches hx
  refine ⟨(Set.finite_singleton link).subset hall, fun x hx hcycle => ?_, fun x hx hcycle => ?_⟩
  · obtain ⟨y, ⟨hcut, _⟩, _⟩ := Relation.TransGen.head'_iff.mp hcycle
    rw [eq_link_of_reaches hx] at hcut
    cases hcut
  · obtain ⟨y, ⟨hw, _⟩, _⟩ := Relation.TransGen.head'_iff.mp hcycle
    rw [eq_link_of_reaches hx] at hw
    cases hw

theorem schemaOf_link_terminates : ∃ fuel answer, answer ≠ .error .outOfFuel ∧
    ∀ more ≥ fuel, Generator.schemaOf {} linkGraph more link [] = answer :=
  schemaOf_terminates finitelyCut_link []

end TypeSchema
