/-
  What stands under the keys of a registry.

  `Fragments g us fs` says what the fragments of uses look like, without a word about registries.
  If no key is asked for by two types, then the definition that a call registers under a key is
  the definition of every use that asks for it (`Visits.whole`), whoever came first. The uses that
  a call visits are a finite list, and all that are met from the root are among them
  (`Visits.mem_of_meets`).
-/
import TypeSchema.Proofs.Reach

namespace TypeSchema

variable {N : Type} {g : Graph N}

/-- The use that is built in place for a use: the use itself, or the definition it points to. -/
def Use.content (u : Use N) : Use N := if u.key?.isSome then u.definition else u

/-- `v` is built for the content of `u`. -/
def Steps (g : Graph N) (u v : Use N) : Prop :=
  ∃ n us, u.content.parts g n = .ok us ∧ v ∈ us

/-- The uses that building `u` comes to. -/
def Meets (g : Graph N) : Use N → Use N → Prop := Relation.ReflTransGen (Steps g)

/-- Uses that ask for the same key are of one type, nullable or not. -/
def OneTypePerKey (g : Graph N) (root : Use N) : Prop :=
  ∀ u v key, Meets g root u → Meets g root v → u.key? = some key → v.key? = some key →
    u.descriptor.nonNullable = v.descriptor.nonNullable

/-- The fragments of uses: built in place from the fragments of the parts, or pointers. -/
inductive Fragments (g : Graph N) : List (Use N) → List Object → Prop
  | nil : Fragments g [] []
  | inPlace {u us vs fs gs f} (n : Nat) :
    u.key? = none → u.parts g n = .ok us → Fragments g us fs → u.finish us fs = .ok f →
    Fragments g vs gs → Fragments g (u :: vs) (f :: gs)
  | pointer {u vs gs f key} (n : Nat) :
    u.key? = some key → u.pointer g n key = .ok f → Fragments g vs gs →
    Fragments g (u :: vs) (f :: gs)

/-- The fragment that the use has when it is built in place. -/
def Whole (g : Graph N) (u : Use N) (t : Object) : Prop :=
  ∃ n us fs, u.parts g n = .ok us ∧ Fragments g us fs ∧ u.finish us fs = .ok t

/-! ## Contents -/

theorem Use.content_of_unkeyed {u : Use N} (h : u.key? = none) : u.content = u := by
  unfold content
  rw [h]
  rfl

theorem Use.content_of_keyed {u : Use N} {key : String} (h : u.key? = some key) :
    u.content = u.definition := by
  unfold content
  rw [h]
  rfl

/-- A type has one definition, whichever use asks for it. -/
theorem Use.definition_eq {u v : Use N}
    (h : u.descriptor.nonNullable = v.descriptor.nonNullable) : u.definition = v.definition := by
  have hkind : ∀ d : Descriptor N, d.isWrapper = d.nonNullable.isWrapper := by
    intro d
    unfold Descriptor.isWrapper
    rw [Descriptor.kind_eq_of_outline d.outline_nonNullable]
  unfold definition
  rw [hkind u.descriptor, hkind v.descriptor, h]

theorem Use.outline_content (u : Use N) : u.content.descriptor.outline = u.descriptor.outline := by
  unfold content
  split
  · exact u.outline_definition
  · rfl

/-- A definition does not accept `null`, whatever the use does. -/
theorem Use.nullable_definition (u : Use N) : u.definition.descriptor.nullable = false := by
  unfold definition
  split
  · exact nullable_nonNullable _
  · exact nullable_nonNullable _

/-- A step goes to a child, nullable or not. -/
theorem child_of_steps {u v : Use N} (h : Steps g u v) :
    ∃ c, Child g u.descriptor c ∧ (v.descriptor = c ∨ v.descriptor = c.intoNullable) := by
  obtain ⟨n, us, hp, hv⟩ := h
  obtain ⟨c, hc, hvc⟩ := child_of_parts (Parts.of_parts hp) hv
  exact ⟨c, hc.of_outline u.outline_content, hvc⟩

/-- What is met are uses of descriptors within reach, nullable or not. -/
theorem reaches_of_meets {root u : Use N} (h : Meets g root u) :
    ∃ x, Reaches g root.descriptor x ∧ (u.descriptor = x ∨ u.descriptor = x.intoNullable) := by
  induction h with
  | refl => exact ⟨_, .refl, Or.inl rfl⟩
  | tail _ hstep ih =>
    obtain ⟨x, hx, hux⟩ := ih
    obtain ⟨c, hc, hvc⟩ := child_of_steps hstep
    exact ⟨c, hx.tail (hc.of_outline (Descriptor.outline_eq_of_or hux)), hvc⟩

theorem DistinctNames.of_meets {root u : Use N} (hn : DistinctNames g root.descriptor)
    (h : Meets g root u) : DistinctNames g u.descriptor := by
  obtain ⟨x, hx, hux⟩ := reaches_of_meets h
  have hnx : DistinctNames g x := fun y hy => hn y (hx.trans hy)
  exact hnx.of_outline (Descriptor.outline_eq_of_or hux).symm

/-! ## Lists of fragments -/

namespace Fragments

variable {us : List (Use N)} {fs : List Object}

theorem length_eq (h : Fragments g us fs) : us.length = fs.length := by
  induction h with
  | nil => rfl
  | inPlace n _ _ _ _ _ _ ih => rw [List.length_cons, List.length_cons, ih]
  | pointer n _ _ _ ih => rw [List.length_cons, List.length_cons, ih]

/-- Each fragment is the one of its use. -/
theorem of_mem_zip (h : Fragments g us fs) {p : Use N × Object} (hp : p ∈ us.zip fs) :
    Fragments g [p.1] [p.2] := by
  induction h with
  | nil => cases hp
  | inPlace n hk hparts hus hf _ _ ih =>
    rcases List.mem_cons.mp hp with rfl | hp
    · exact .inPlace n hk hparts hus hf .nil
    · exact ih hp
  | pointer n hk hf _ ih =>
    rcases List.mem_cons.mp hp with rfl | hp
    · exact .pointer n hk hf .nil
    · exact ih hp

end Fragments

/-! ## Fragments of a build -/

namespace Builds

variable {r r' : Registry} {us : List (Use N)} {fs : List Object}

theorem fragments (h : Builds g r us fs r') : Fragments g us fs := by
  induction h with
  | nil r => exact .nil
  | inPlace n hk hp _ hf _ ihus ihvs => exact .inPlace n hk hp ihus hf ihvs
  | known n hk _ hf _ ih => exact .pointer n hk hf ih
  | defined n m hk _ _ _ _ hf _ _ ih => exact .pointer m hk hf ih

end Builds

/-- `S` has the uses that are visited while `us` are built from `r`, up to `r'`. -/
structure Visits (g : Graph N) (r r' : Registry) (us S : List (Use N)) : Prop where
  start : us ⊆ S
  met : ∀ u ∈ S, ∃ w ∈ us, Meets g w u
  closed : ∀ u ∈ S, u.key? = none → ∀ v, Steps g u v → v ∈ S
  registered : ∀ u ∈ S, ∀ key, u.key? = some key → r'.contains key = true
  /-- A key that is new has the definition of a use that asks for it. -/
  ready : ∀ key, r'.contains key = true → r.contains key = true ∨
    ∃ u ∈ S, ∃ t, u.key? = some key ∧ r'.get? key = some t ∧ Whole g u.definition t ∧
      ∀ v, Steps g u v → v ∈ S

theorem Steps.mem_parts {u v : Use N} {n : Nat} {us : List (Use N)} (h : Steps g u v)
    (hp : u.content.parts g n = .ok us) : v ∈ us := by
  obtain ⟨m, vs, hvs, hv⟩ := h
  rw [parts_unique hp hvs]
  exact hv

namespace Visits

variable {r r₁ r₂ : Registry} {u : Use N} {us vs S T : List (Use N)} {gs : List Object}

/-- Going on with further uses keeps what was visited before. -/
theorem append (hS : Visits g r r₁ us S) (hT : Visits g r₁ r₂ vs T) (hvs : Builds g r₁ vs gs r₂) :
    Visits g r r₂ (us ++ vs) (S ++ T) := by
  have hSsub : S ⊆ S ++ T := List.subset_append_left S T
  have hTsub : T ⊆ S ++ T := List.subset_append_right S T
  refine ⟨fun w hw => ?_, fun w hw => ?_, fun w hw hk v hv => ?_, fun w hw key hk => ?_,
    fun key hc => ?_⟩
  · exact (List.mem_append.mp hw).elim (fun h => hSsub (hS.start h)) fun h => hTsub (hT.start h)
  · rcases List.mem_append.mp hw with hw | hw
    · obtain ⟨v, hv, hvw⟩ := hS.met w hw
      exact ⟨v, List.mem_append_left _ hv, hvw⟩
    · obtain ⟨v, hv, hvw⟩ := hT.met w hw
      exact ⟨v, List.mem_append_right _ hv, hvw⟩
  · rcases List.mem_append.mp hw with hw | hw
    · exact hSsub (hS.closed w hw hk v hv)
    · exact hTsub (hT.closed w hw hk v hv)
  · rcases List.mem_append.mp hw with hw | hw
    · exact hvs.contains_of_contains (hS.registered w hw key hk)
    · exact hT.registered w hw key hk
  · rcases hT.ready key hc with hc | ⟨w, hw, t, hk, ht, hwhole, hsteps⟩
    · rcases hS.ready key hc with hc | ⟨w, hw, t, hk, ht, hwhole, hsteps⟩
      · exact Or.inl hc
      · exact Or.inr ⟨w, hSsub hw, t, hk, hvs.get?_mono ht, hwhole,
          fun v hv => hSsub (hsteps v hv)⟩
    · exact Or.inr ⟨w, hTsub hw, t, hk, ht, hwhole, fun v hv => hTsub (hsteps v hv)⟩

/-- A use whose content has the parts `us` is met before they are. -/
theorem met_cons {n : Nat} (hp : u.content.parts g n = .ok us) (hS : Visits g r r₁ us S) :
    ∀ w ∈ u :: S, ∃ v ∈ [u], Meets g v w := by
  intro w hw
  refine ⟨u, List.mem_singleton_self u, ?_⟩
  rcases List.mem_cons.mp hw with rfl | hw
  · exact .refl
  · obtain ⟨v, hv, hvw⟩ := hS.met w hw
    exact .head ⟨n, us, hp, hv⟩ hvw

theorem inPlace {n : Nat} (hk : u.key? = none) (hp : u.parts g n = .ok us)
    (hS : Visits g r r₁ us S) : Visits g r r₁ [u] (u :: S) := by
  have hp' : u.content.parts g n = .ok us := by rw [Use.content_of_unkeyed hk]; exact hp
  refine ⟨fun w hw => ?_, hS.met_cons hp', fun w hw hwk v hv => ?_, fun w hw key hwk => ?_,
    fun key hc => ?_⟩
  · rw [List.mem_singleton.mp hw]
    exact List.mem_cons_self
  · rcases List.mem_cons.mp hw with rfl | hw
    · exact List.mem_cons_of_mem _ (hS.start (hv.mem_parts hp'))
    · exact List.mem_cons_of_mem _ (hS.closed w hw hwk v hv)
  · rcases List.mem_cons.mp hw with rfl | hw
    · rw [hk] at hwk
      cases hwk
    · exact hS.registered w hw key hwk
  · refine (hS.ready key hc).imp_right ?_
    rintro ⟨w, hw, t, hwk, ht, hwhole, hsteps⟩
    exact ⟨w, List.mem_cons_of_mem _ hw, t, hwk, ht, hwhole,
      fun v hv => List.mem_cons_of_mem _ (hsteps v hv)⟩

theorem known {key : String} (hk : u.key? = some key) (hc : r.contains key = true) :
    Visits g r r [u] [u] := by
  refine ⟨fun w hw => hw, fun w hw => ⟨w, hw, .refl⟩, fun w hw hwk => ?_, fun w hw key' hwk => ?_,
    fun key' hc' => Or.inl hc'⟩
  · rw [List.mem_singleton.mp hw, hk] at hwk
    cases hwk
  · rw [List.mem_singleton.mp hw, hk] at hwk
    rw [← Option.some.inj hwk]
    exact hc

theorem defined {n : Nat} {key : String} {fs : List Object} {t : Object} (hk : u.key? = some key)
    (hp : u.definition.parts g n = .ok us) (hus : Builds g (r.insert key .pending) us fs r₁)
    (ht : u.definition.finish us fs = .ok t) (hS : Visits g (r.insert key .pending) r₁ us S) :
    Visits g r (r₁.insert key (.ready t)) [u] (u :: S) := by
  have hp' : u.content.parts g n = .ok us := by rw [Use.content_of_keyed hk]; exact hp
  have hsteps : ∀ v, Steps g u v → v ∈ u :: S := fun v hv =>
    List.mem_cons_of_mem _ (hS.start (hv.mem_parts hp'))
  refine ⟨fun w hw => ?_, hS.met_cons hp', fun w hw hwk v hv => ?_, fun w hw key' hwk => ?_,
    fun key' hc => ?_⟩
  · rw [List.mem_singleton.mp hw]
    exact List.mem_cons_self
  · rcases List.mem_cons.mp hw with rfl | hw
    · exact hsteps v hv
    · exact List.mem_cons_of_mem _ (hS.closed w hw hwk v hv)
  · rcases List.mem_cons.mp hw with rfl | hw
    · rw [hk] at hwk
      cases hwk
      exact Registry.contains_insert_self _ _ _
    · exact Registry.contains_insert_of_contains _ _ (hS.registered w hw key' hwk)
  · by_cases hkey : key = key'
    · subst hkey
      refine Or.inr ⟨u, List.mem_cons_self, t, hk, ?_, ⟨n, us, fs, hp, hus.fragments, ht⟩, hsteps⟩
      rw [Registry.get?_insert_ready, if_pos rfl]
    · rw [Registry.contains_insert, decide_eq_false hkey, Bool.false_or] at hc
      rcases hS.ready key' hc with hc | ⟨w, hw, t', hwk, ht', hwhole, hwsteps⟩
      · rw [Registry.contains_insert, decide_eq_false hkey, Bool.false_or] at hc
        exact Or.inl hc
      · exact Or.inr ⟨w, List.mem_cons_of_mem _ hw, t', hwk, hus.get?_of_pending ht', hwhole,
          fun v hv => List.mem_cons_of_mem _ (hwsteps v hv)⟩

end Visits

/-- What a build visits: each use that has no key is built in place, so its parts are known. -/
theorem exists_visits_placed {r r' : Registry} {us : List (Use N)} {fs : List Object}
    (h : Builds g r us fs r') : ∃ S, Visits g r r' us S ∧
      ∀ u ∈ S, u.key? = none → ∃ n vs, u.parts g n = .ok vs := by
  have hkeyed : ∀ {u : Use N} {key : String} {S : List (Use N)}, u.key? = some key →
      (∀ v ∈ S, v.key? = none → ∃ n vs, v.parts g n = .ok vs) →
      ∀ v ∈ u :: S, v.key? = none → ∃ n vs, v.parts g n = .ok vs := by
    intro u key S hk hS
    refine List.forall_mem_cons.mpr ⟨fun hnone => ?_, hS⟩
    rw [hk] at hnone
    cases hnone
  induction h with
  | nil r =>
    exact ⟨[], ⟨fun _ hw => hw, fun _ hw => (List.not_mem_nil hw).elim,
      fun _ hw => (List.not_mem_nil hw).elim, fun _ hw => (List.not_mem_nil hw).elim,
      fun _ hc => Or.inl hc⟩, fun _ hw => (List.not_mem_nil hw).elim⟩
  | inPlace n hk hp _ _ hvs ihus ihvs =>
    obtain ⟨S, hS, hSparts⟩ := ihus
    obtain ⟨T, hT, hTparts⟩ := ihvs
    refine ⟨_, (hS.inPlace hk hp).append hT hvs, List.forall_mem_append.mpr ⟨?_, hTparts⟩⟩
    exact List.forall_mem_cons.mpr ⟨fun _ => ⟨n, _, hp⟩, hSparts⟩
  | known n hk hc _ hvs ihvs =>
    obtain ⟨T, hT, hTparts⟩ := ihvs
    refine ⟨_, (Visits.known hk hc).append hT hvs, List.forall_mem_append.mpr ⟨?_, hTparts⟩⟩
    exact hkeyed hk fun _ hw => (List.not_mem_nil hw).elim
  | defined n m hk _ hp hus ht _ hvs ihus ihvs =>
    obtain ⟨S, hS, hSparts⟩ := ihus
    obtain ⟨T, hT, hTparts⟩ := ihvs
    exact ⟨_, (hS.defined hk hp hus ht).append hT hvs,
      List.forall_mem_append.mpr ⟨hkeyed hk hSparts, hTparts⟩⟩

theorem exists_visits {r r' : Registry} {us : List (Use N)} {fs : List Object}
    (h : Builds g r us fs r') : ∃ S, Visits g r r' us S := by
  obtain ⟨S, hS, _⟩ := exists_visits_placed h
  exact ⟨S, hS⟩

/-! ## Calls -/

namespace Visits

variable {r : Registry} {root u : Use N} {S : List (Use N)}

/-- In a whole call every key that is asked for has a definition, made for a use that was met. -/
theorem exists_definer (hS : Visits g {} r [root] S) (hu : u ∈ S) {key : String}
    (hk : u.key? = some key) : ∃ w ∈ S, Meets g root w ∧ w.key? = some key ∧
      (∃ t, r.get? key = some t ∧ Whole g w.definition t) ∧ ∀ v, Steps g w v → v ∈ S := by
  rcases hS.ready key (hS.registered u hu key hk) with hc | ⟨w, hw, t, hwk, ht, hwhole, hsteps⟩
  · cases hc
  · obtain ⟨v, hv, hvw⟩ := hS.met w hw
    rw [List.mem_singleton.mp hv] at hvw
    exact ⟨w, hw, hvw, hwk, ⟨t, ht, hwhole⟩, hsteps⟩

variable (hone : OneTypePerKey g root)

include hone

/-- The uses that are met from the root are visited. -/
theorem mem_of_meets (hS : Visits g {} r [root] S) (hu : Meets g root u) : u ∈ S := by
  induction hu with
  | refl => exact hS.start (List.mem_singleton_self root)
  | @tail u v hu hstep ih =>
    cases hk : u.key? with
    | none => exact hS.closed u ih hk v hstep
    | some key =>
      obtain ⟨w, _, hw, hwk, _, hsteps⟩ := hS.exists_definer ih hk
      have hdef : u.content = w.content := by
        rw [Use.content_of_keyed hk, Use.content_of_keyed hwk]
        exact Use.definition_eq (hone u w key hu hw hk hwk)
      refine hsteps v ?_
      unfold Steps at hstep ⊢
      rw [← hdef]
      exact hstep

/-- The definition under a key is the one of every use that asks for it. -/
theorem whole (hS : Visits g {} r [root] S) (hu : Meets g root u) {key : String}
    (hk : u.key? = some key) : ∃ t, r.get? key = some t ∧ Whole g u.definition t := by
  obtain ⟨w, _, hw, hwk, ⟨t, ht, hwhole⟩, _⟩ := hS.exists_definer (hS.mem_of_meets hone hu) hk
  refine ⟨t, ht, ?_⟩
  rw [Use.definition_eq (hone u w key hu hw hk hwk)]
  exact hwhole

/-- If the uses without a key are built in place, then the parts of all that is met are known. -/
theorem exists_parts_of_meets (hS : Visits g {} r [root] S)
    (hplaced : ∀ u ∈ S, u.key? = none → ∃ n vs, u.parts g n = .ok vs) (hu : Meets g root u) :
    ∃ n us, u.content.parts g n = .ok us := by
  cases hk : u.key? with
  | none =>
    rw [Use.content_of_unkeyed hk]
    exact hplaced u (hS.mem_of_meets hone hu) hk
  | some key =>
    obtain ⟨_, _, n, us, _, hp, _⟩ := hS.whole hone hu hk
    rw [Use.content_of_keyed hk]
    exact ⟨n, us, hp⟩

end Visits

/-- Where one descriptor stands at every node, all that is met are uses of it. -/
theorem oneTypePerKey_const {d : Descriptor N} (hd : d.nullable = false) (seed : Annotations) :
    OneTypePerKey (fun _ => d) ⟨d, seed⟩ := by
  have hall : ∀ u, Meets (fun _ => d) ⟨d, seed⟩ u → u.descriptor.nonNullable = d := by
    intro u hu
    obtain ⟨x, hx, hux⟩ := reaches_of_meets hu
    rw [eq_of_reaches_const hx] at hux
    rcases hux with hux | hux
    · rw [hux]
      unfold Descriptor.nonNullable
      rw [if_neg (by simp [hd])]
    · rw [hux]
      exact Descriptor.nonNullable_intoNullable hd
  intro u v key hu hv _ _
  rw [hall u hu, hall v hv]

/-- All that a link meets are links. -/
theorem oneTypePerKey_link (seed : Annotations) : OneTypePerKey linkGraph ⟨link, seed⟩ :=
  oneTypePerKey_const rfl seed

end TypeSchema
