/-
  Successful builds as derivations.

  `Builds g r us fs r'` says that the uses `us`, built one after the other from the registry `r`,
  have the fragments `fs` and leave the registry `r'`. Its rules are the four things that a build
  can do. The generator succeeds exactly as the rules say (`builds_of_build`, `build_of_builds`),
  and what holds of every successful build is shown by induction on them.
-/
import TypeSchema.Proofs.Fuel

namespace TypeSchema

variable {N : Type} {α β : Type}

inductive Builds (g : Graph N) :
    Registry → List (Use N) → List Object → Registry → Prop
  | nil (r : Registry) : Builds g r [] [] r
  /-- Without a key the use is built in place. -/
  | inPlace {u us vs fs gs f r r₁ r₂} (n : Nat) :
    u.key? = none → u.parts g n = .ok us → Builds g r us fs r₁ → u.finish us fs = .ok f →
    Builds g r₁ vs gs r₂ → Builds g r (u :: vs) (f :: gs) r₂
  /-- A key that is registered is pointed to, be its definition ready or not. -/
  | known {u vs gs f key r r'} (n : Nat) :
    u.key? = some key → r.contains key = true → u.pointer g n key = .ok f →
    Builds g r vs gs r' → Builds g r (u :: vs) (f :: gs) r'
  /-- A new key is registered first, and its definition is built before the use goes on. -/
  | defined {u us vs fs gs f t key r r₁ r₂} (n m : Nat) :
    u.key? = some key → r.contains key = false → u.definition.parts g n = .ok us →
    Builds g (r.insert key .pending) us fs r₁ → u.definition.finish us fs = .ok t →
    u.pointer g m key = .ok f → Builds g (r₁.insert key (.ready t)) vs gs r₂ →
    Builds g r (u :: vs) (f :: gs) r₂

/-! ## Running in steps -/

section

variable {ε ε' : Type} {b : β}

theorem except_bind_eq_ok {x : Except ε α} {k : α → Except ε β} :
    (x >>= k) = .ok b ↔ ∃ a, x = .ok a ∧ k a = .ok b := by
  cases x with
  | ok a => simp [bind, Except.bind]
  | error e => simp [bind, Except.bind]

theorem except_map_eq_ok {x : Except ε α} {f : α → β} :
    x.map f = .ok b ↔ ∃ a, x = .ok a ∧ f a = b := by
  cases x with
  | ok a => simp [Except.map]
  | error e => simp [Except.map]

theorem except_mapError_eq_ok {x : Except ε β} {f : ε → ε'} :
    x.mapError f = .ok b ↔ x = .ok b := by
  cases x with
  | ok a => simp [Except.mapError]
  | error e => simp [Except.mapError]

end

theorem bind_eq_ok {x : Build α} {k : α → Build β} {r r' : Registry} {b : β} :
    (x >>= k) r = .ok b r' ↔ ∃ a r₁, x r = .ok a r₁ ∧ k a r₁ = .ok b r' := by
  rw [bind_run]
  cases x r with
  | ok a r₁ => simp
  | error e r₁ => simp

theorem ofExcept_eq_ok {x : Except Failure α} {r r' : Registry} {a : α} :
    Build.ofExcept x r = .ok a r' ↔ x = .ok a ∧ r = r' := by
  cases x with
  | ok b => simp [Build.ofExcept, pure_run]
  | error e => simp [Build.ofExcept, throw_run]

theorem ofExcept_bind_eq_ok {x : Except Failure α} {k : α → Build β} {r r' : Registry} {b : β} :
    (Build.ofExcept x >>= k) r = .ok b r' ↔ ∃ a, x = .ok a ∧ k a r = .ok b r' := by
  simp only [bind_eq_ok, ofExcept_eq_ok]
  constructor
  · rintro ⟨a, _, ⟨ha, rfl⟩, hk⟩
    exact ⟨a, ha, hk⟩
  · rintro ⟨a, ha, hk⟩
    exact ⟨a, r, ⟨ha, rfl⟩, hk⟩

theorem mapM_cons_eq_ok {a : α} {as : List α} {k : α → Build β} {bs : List β}
    {r r' : Registry} :
    (a :: as).mapM k r = .ok bs r' ↔
      ∃ b cs r₁, bs = b :: cs ∧ k a r = .ok b r₁ ∧ as.mapM k r₁ = .ok cs r' := by
  rw [List.mapM_cons]
  simp only [bind_eq_ok, pure_run, EStateM.Result.ok.injEq]
  constructor
  · rintro ⟨b, r₁, hb, cs, _, hcs, rfl, rfl⟩
    exact ⟨b, cs, r₁, rfl, hb, hcs⟩
  · rintro ⟨b, cs, r₁, rfl, hb, hcs⟩
    exact ⟨b, r₁, hb, cs, r', hcs, rfl, rfl⟩

/-! ## From runs to derivations -/

namespace Builds

variable {g : Graph N}

/-- One build and then the others are a build of all of them. -/
theorem cons {u : Use N} {us : List (Use N)} {f : Object} {fs : List Object}
    {r r₁ r₂ : Registry} (h : Builds g r [u] [f] r₁) (h' : Builds g r₁ us fs r₂) :
    Builds g r (u :: us) (f :: fs) r₂ := by
  cases h with
  | inPlace n hk hp hb hf hnil => cases hnil; exact .inPlace n hk hp hb hf h'
  | known n hk hc hf hnil => cases hnil; exact .known n hk hc hf h'
  | defined n m hk hc hp hb ht hf hnil => cases hnil; exact .defined n m hk hc hp hb ht hf h'

theorem of_mapM {k : Use N → Build Object}
    (h : ∀ u f r r', k u r = .ok f r' → Builds g r [u] [f] r') {us : List (Use N)}
    {fs : List Object} {r r' : Registry} (hk : us.mapM k r = .ok fs r') : Builds g r us fs r' := by
  induction us generalizing fs r with
  | nil =>
    rw [List.mapM_nil, pure_run, EStateM.Result.ok.injEq] at hk
    obtain ⟨rfl, rfl⟩ := hk
    exact .nil r
  | cons u us ih =>
    obtain ⟨f, fs, r₁, rfl, hf, hfs⟩ := mapM_cons_eq_ok.mp hk
    exact (h u f r r₁ hf).cons (ih hfs)

end Builds

variable {g : Graph N}

/-- A build in place that succeeds has put its parts together. -/
theorem inPlace_eq_ok {n : Nat} {u : Use N} {f : Object} {r r' : Registry}
    (h : u.inPlace g n r = .ok f r') :
    ∃ m ≤ n, ∃ us fs, u.parts g m = .ok us ∧ us.mapM (Use.build g m) r = .ok fs r' ∧
      u.finish us fs = .ok f := by
  rcases Use.inPlace_eq g n u with hrun | ⟨m, hm, hrun⟩
  · rw [hrun, throw_run] at h
    cases h
  rw [hrun] at h
  unfold Use.assemble at h
  rw [ofExcept_bind_eq_ok] at h
  obtain ⟨us, hus, h⟩ := h
  obtain ⟨fs, r₁, hfs, h⟩ := bind_eq_ok.mp h
  obtain ⟨hf, rfl⟩ := ofExcept_eq_ok.mp h
  exact ⟨m, hm, us, fs, hus, hfs, hf⟩

theorem builds_of_build {n : Nat} {u : Use N} {f : Object} {r r' : Registry}
    (h : u.build g n r = .ok f r') : Builds g r [u] [f] r' := by
  induction n using Nat.strongRecOn generalizing u f r r' with
  | ind n ih =>
    cases n with
    | zero =>
      rw [Use.build_zero, throw_run] at h
      cases h
    | succ n =>
      cases hk : u.key? with
      | none =>
        rw [Use.build_unkeyed g n hk] at h
        obtain ⟨m, hm, us, fs, hus, hfs, hf⟩ := inPlace_eq_ok h
        exact .inPlace m hk hus (.of_mapM (fun _ _ _ _ => ih m (by omega)) hfs) hf (.nil r')
      | some key =>
        rw [Use.build_keyed g n hk, ofExcept_bind_eq_ok] at h
        obtain ⟨_, _, h⟩ := h
        obtain ⟨use, r₁, hr, h⟩ := bind_eq_ok.mp h
        obtain ⟨hf, rfl⟩ := ofExcept_eq_ok.mp h
        by_cases hc : r.contains key = true
        · rw [request_known hc, EStateM.Result.ok.injEq] at hr
          obtain ⟨_, rfl⟩ := hr
          exact .known n hk hc hf (.nil r)
        · have hc' : r.contains key = false := by simpa using hc
          rw [request_unknown_some hc'] at hr
          cases hd : u.definition.inPlace g n (r.insert key .pending) with
          | error e r₂ => rw [hd] at hr; cases hr
          | ok t r₂ =>
            rw [hd] at hr
            obtain ⟨m, hm, us, fs, hus, hfs, ht⟩ := inPlace_eq_ok hd
            cases hr
            exact .defined m n hk hc' hus (.of_mapM (fun _ _ _ _ => ih m (by omega)) hfs) ht hf
              (.nil _)

/-! ## From derivations to runs -/

theorem parts_mono {n m : Nat} (h : n ≤ m) {u : Use N} {us : List (Use N)}
    (hu : u.parts g n = .ok us) : u.parts g m = .ok us := by
  induction h with
  | refl => exact hu
  | step _ ih =>
    rcases Use.parts_succ g _ u with h | h
    · rw [ih] at h; cases h
    · rw [← h, ih]

theorem pointer_mono {n m : Nat} (h : n ≤ m) {u : Use N} {key : String} {f : Object}
    (hu : u.pointer g n key = .ok f) : u.pointer g m key = .ok f := by
  induction h with
  | refl => exact hu
  | step _ ih =>
    rcases Use.pointer_succ g _ u key with h | h
    · rw [ih] at h; cases h
    · rw [← h, ih]

/-- A use has only one list of parts, whatever fuel it takes to find them. -/
theorem parts_unique {n m : Nat} {u : Use N} {us vs : List (Use N)}
    (hu : u.parts g n = .ok us) (hv : u.parts g m = .ok vs) : us = vs := by
  have h := parts_mono (Nat.le_max_left n m) hu
  rw [parts_mono (Nat.le_max_right n m) hv] at h
  exact (Except.ok.inj h).symm

/-- What a use points to can be looked through, so the use is not malformed. -/
theorem guard_of_pointer {n : Nat} {u : Use N} {key : String} {f : Object}
    (h : u.pointer g n key = .ok f) : u.guard = .ok () := by
  unfold Use.pointer Use.target at h
  unfold Use.guard
  by_cases hw : u.descriptor.isWrapper = true
  · rw [if_pos hw] at h ⊢
    obtain ⟨target, htarget, _⟩ := except_bind_eq_ok.mp h
    obtain ⟨value, hvalue, _⟩ := except_bind_eq_ok.mp htarget
    rw [hvalue]
    rfl
  · rw [if_neg hw]

/-- With fuel for the parts, and one unit more, the use is built in place. -/
theorem inPlace_run {n F : Nat} {u : Use N} {us : List (Use N)} {fs : List Object} {f : Object}
    {r r' : Registry} (hp : u.parts g n = .ok us)
    (hus : ∀ fuel ≥ F, us.mapM (Use.build g fuel) r = .ok fs r') (hf : u.finish us fs = .ok f)
    {fuel : Nat} (hfuel : n + F + 1 ≤ fuel) : u.inPlace g fuel r = .ok f r' := by
  have hassemble : ∀ k, n + F ≤ k → u.assemble g k r = .ok f r' := by
    intro k hk
    unfold Use.assemble
    rw [ofExcept_bind_eq_ok]
    refine ⟨us, parts_mono (by omega) hp, ?_⟩
    rw [bind_eq_ok]
    exact ⟨fs, r', hus k (by omega), ofExcept_eq_ok.mpr ⟨hf, rfl⟩⟩
  by_cases hw : u.descriptor.isWrapper = true
  · unfold Use.inPlace
    rw [if_pos hw]
    exact hassemble fuel (by omega)
  · obtain ⟨k, rfl⟩ : ∃ k, fuel = k + 1 := ⟨fuel - 1, by omega⟩
    rw [Use.inPlace_succ g k (by simpa using hw)]
    exact hassemble k (by omega)

/-- Every derivation is a run, whatever fuel beyond some bound it is given. -/
theorem build_of_builds {us : List (Use N)} {fs : List Object} {r r' : Registry}
    (h : Builds g r us fs r') : ∃ F, ∀ fuel ≥ F, us.mapM (Use.build g fuel) r = .ok fs r' := by
  induction h with
  | nil r => exact ⟨0, fun _ _ => rfl⟩
  | inPlace n hk hp _ hf _ ihus ihvs =>
    obtain ⟨F, hus⟩ := ihus
    obtain ⟨F', hvs⟩ := ihvs
    refine ⟨n + F + F' + 2, fun fuel hfuel => ?_⟩
    obtain ⟨k, rfl⟩ : ∃ k, fuel = k + 1 := ⟨fuel - 1, by omega⟩
    rw [mapM_cons_eq_ok]
    refine ⟨_, _, _, rfl, ?_, hvs (k + 1) (by omega)⟩
    rw [Use.build_unkeyed g k hk]
    exact inPlace_run hp hus hf (by omega)
  | known n hk hc hf _ ihvs =>
    obtain ⟨F', hvs⟩ := ihvs
    refine ⟨n + F' + 1, fun fuel hfuel => ?_⟩
    obtain ⟨k, rfl⟩ : ∃ k, fuel = k + 1 := ⟨fuel - 1, by omega⟩
    rw [mapM_cons_eq_ok]
    refine ⟨_, _, _, rfl, ?_, hvs (k + 1) (by omega)⟩
    rw [Use.build_keyed g k hk, ofExcept_bind_eq_ok]
    refine ⟨(), guard_of_pointer hf, bind_eq_ok.mpr ⟨_, _, request_known hc _ _, ?_⟩⟩
    exact ofExcept_eq_ok.mpr ⟨pointer_mono (by omega) hf, rfl⟩
  | defined n m hk hc hp _ ht hf _ ihus ihvs =>
    obtain ⟨F, hus⟩ := ihus
    obtain ⟨F', hvs⟩ := ihvs
    refine ⟨n + m + F + F' + 2, fun fuel hfuel => ?_⟩
    obtain ⟨k, rfl⟩ : ∃ k, fuel = k + 1 := ⟨fuel - 1, by omega⟩
    rw [mapM_cons_eq_ok]
    refine ⟨_, _, _, rfl, ?_, hvs (k + 1) (by omega)⟩
    rw [Use.build_keyed g k hk, ofExcept_bind_eq_ok]
    refine ⟨(), guard_of_pointer hf, ?_⟩
    rw [bind_run, request_unknown_some hc, inPlace_run hp hus ht (by omega)]
    exact ofExcept_eq_ok.mpr ⟨pointer_mono (by omega) hf, rfl⟩

/-! ## Runs are determined -/

namespace Builds

variable {r r₁ r₂ r' : Registry} {u : Use N} {us : List (Use N)} {fs fs' : List Object}

theorem unique (h : Builds g r us fs r₁) (h' : Builds g r us fs' r₂) : fs = fs' ∧ r₁ = r₂ := by
  obtain ⟨F, hF⟩ := build_of_builds h
  obtain ⟨F', hF'⟩ := build_of_builds h'
  have hrun := hF (max F F') (Nat.le_max_left F F')
  rw [hF' (max F F') (Nat.le_max_right F F')] at hrun
  cases hrun
  exact ⟨rfl, rfl⟩

/-- The first use is built, and then the others. -/
theorem uncons (h : Builds g r (u :: us) fs r') :
    ∃ f fs' r₁, fs = f :: fs' ∧ Builds g r [u] [f] r₁ ∧ Builds g r₁ us fs' r' := by
  cases h with
  | inPlace n hk hp hus hf hvs =>
    exact ⟨_, _, _, rfl, .inPlace n hk hp hus hf (.nil _), hvs⟩
  | known n hk hc hf hvs => exact ⟨_, _, _, rfl, .known n hk hc hf (.nil _), hvs⟩
  | defined n m hk hc hp hus ht hf hvs =>
    exact ⟨_, _, _, rfl, .defined n m hk hc hp hus ht hf (.nil _), hvs⟩

theorem exists_run {f : Object} (h : Builds g r [u] [f] r') : ∃ n, u.build g n r = .ok f r' := by
  obtain ⟨F, hF⟩ := build_of_builds h
  obtain ⟨_, _, r₁, hfs, hrun, hnil⟩ := mapM_cons_eq_ok.mp (hF F (Nat.le_refl F))
  rw [List.mapM_nil, pure_run, EStateM.Result.ok.injEq] at hnil
  obtain ⟨rfl, rfl⟩ := hnil
  cases hfs
  exact ⟨F, hrun⟩

end Builds

/-! ## Entries -/

namespace Registry

theorem contains_of_entry_eq {r r' : Registry} {key : String}
    (h : r'.entries.get? key = r.entries.get? key) (hc : r.contains key = true) :
    r'.contains key = true := by
  unfold contains Table.contains at hc ⊢
  rw [h, hc]

theorem contains_insert_self (r : Registry) (key : String) (entry : Entry) :
    (r.insert key entry).contains key = true := by
  rw [contains_insert, decide_eq_true rfl, Bool.true_or]

theorem contains_insert_of_contains {r : Registry} (key : String) (entry : Entry)
    {key' : String} (hc : r.contains key' = true) : (r.insert key entry).contains key' = true := by
  rw [contains_insert, hc, Bool.or_true]

theorem contains_of_get? {r : Registry} {key : String} {t : Object} (h : r.get? key = some t) :
    r.contains key = true := by
  rw [contains_eq, h, Option.isSome_some, Bool.or_true]

theorem entry_insert_of_ne (r : Registry) {key key' : String} (entry : Entry)
    (h : key ≠ key') : (r.insert key entry).entries.get? key' = r.entries.get? key' :=
  Table.get?_insert_of_ne _ _ h

end Registry

/-! ## What a build leaves in the registry -/

namespace Builds

variable {us : List (Use N)} {fs : List Object} {r r' : Registry}

theorem length_eq (h : Builds g r us fs r') : us.length = fs.length := by
  induction h with
  | nil r => rfl
  | inPlace n _ _ _ _ _ _ ih => rw [List.length_cons, List.length_cons, ih]
  | known n _ _ _ _ ih => rw [List.length_cons, List.length_cons, ih]
  | defined n m _ _ _ _ _ _ _ _ ih => rw [List.length_cons, List.length_cons, ih]

/-- A key that is there keeps its entry. -/
theorem entry_eq (h : Builds g r us fs r') {key : String} (hc : r.contains key = true) :
    r'.entries.get? key = r.entries.get? key := by
  induction h with
  | nil r => rfl
  | inPlace n _ _ _ _ _ ihus ihvs =>
    have hus := ihus hc
    have hc₁ := Registry.contains_of_entry_eq hus hc
    rw [ihvs hc₁, hus]
  | known n _ _ _ _ ih => exact ih hc
  | @defined u _ _ _ _ _ t new r r₁ _ n m _ hnew _ _ _ _ _ ihus ihvs =>
    have hne : new ≠ key := by
      rintro rfl
      rw [hc] at hnew
      cases hnew
    have hpending := Registry.entry_insert_of_ne r (.pending) hne
    have hus := (ihus (Registry.contains_of_entry_eq hpending hc)).trans hpending
    have hready := (Registry.entry_insert_of_ne r₁ (.ready t) hne).trans hus
    rw [ihvs (Registry.contains_of_entry_eq hready hc), hready]

theorem contains_of_contains (h : Builds g r us fs r') {key : String}
    (hc : r.contains key = true) : r'.contains key = true :=
  Registry.contains_of_entry_eq (h.entry_eq hc) hc

theorem get?_eq (h : Builds g r us fs r') {key : String} (hc : r.contains key = true) :
    r'.get? key = r.get? key := by
  unfold Registry.get?
  rw [h.entry_eq hc]

/-- A definition that is there when the build starts is there when it ends. -/
theorem get?_mono (h : Builds g r us fs r') {key : String} {t : Object}
    (ht : r.get? key = some t) : r'.get? key = some t := by
  rw [h.get?_eq (Registry.contains_of_get? ht)]
  exact ht

/-- A definition made while another one is pending stays when that one is ready. -/
theorem get?_of_pending {key : String} {t₀ : Object}
    (h : Builds g (r.insert key .pending) us fs r') {key' : String} {t : Object}
    (ht : r'.get? key' = some t) : (r'.insert key (.ready t₀)).get? key' = some t := by
  have hne : key ≠ key' := by
    rintro rfl
    rw [h.get?_eq (Registry.contains_insert_self _ _ _), Registry.get?_insert_pending,
      if_pos rfl] at ht
    cases ht
  rw [Registry.get?_insert_ready, if_neg hne]
  exact ht

theorem ordered (h : Builds g r us fs r') (hr : r.entries.Ordered) : r'.entries.Ordered := by
  induction h with
  | nil r => exact hr
  | inPlace n _ _ _ _ _ ihus ihvs => exact ihvs (ihus hr)
  | known n _ _ _ _ ih => exact ih hr
  | defined n m _ _ _ _ _ _ _ ihus ihvs =>
    exact ihvs (Table.ordered_insert (ihus (Table.ordered_insert hr _ _)) _ _)

end Builds

/-! ## Whole documents -/

/-- A document is the fragment of its descriptor, with the registry that was left. -/
theorem builds_of_schemaOf {n : Nat} {d : Descriptor N} {seed : Annotations} {doc : Object}
    (h : Generator.schemaOf {} g n d seed = .ok doc) :
    ∃ f r, Builds g {} [⟨d, seed⟩] [f] r ∧ doc = r.attachTo f := by
  unfold Generator.schemaOf at h
  cases hb : Generator.build {} g n d seed {} with
  | ok f r =>
    rw [hb] at h
    exact ⟨f, r, builds_of_build (u := ⟨d, seed⟩) hb, (Except.ok.inj h).symm⟩
  | error e r =>
    rw [hb] at h
    cases h

theorem schemaOf_of_builds {d : Descriptor N} {seed : Annotations} {f : Object} {r : Registry}
    (h : Builds g {} [⟨d, seed⟩] [f] r) :
    ∃ F, ∀ fuel ≥ F, Generator.schemaOf {} g fuel d seed = .ok (r.attachTo f) := by
  obtain ⟨F, hF⟩ := build_of_builds h
  refine ⟨F, fun fuel hfuel => ?_⟩
  obtain ⟨_, _, _, hfs, hb, hnil⟩ := mapM_cons_eq_ok.mp (hF fuel hfuel)
  rw [List.mapM_nil, pure_run, EStateM.Result.ok.injEq] at hnil
  obtain ⟨rfl, rfl⟩ := hnil
  cases hfs
  unfold Generator.schemaOf
  change Generator.build {} g fuel d seed {} = _ at hb
  rw [hb]

namespace Registry

variable {r : Registry} {f : Object}

theorem get?_definitions (h : r.entries.Ordered) (key : String) :
    r.definitions.get? key = (r.get? key).map .object := by
  unfold definitions get?
  rw [Table.get?_filterMap h]
  cases r.entries.get? key with
  | none => rfl
  | some entry => rfl

theorem contains_of_mem_keys (h : r.entries.Ordered) {key : String}
    (hkey : key ∈ r.definitions.keys) : r.contains key = true := by
  obtain ⟨e, he, rfl⟩ := List.mem_map.mp hkey
  have hordered : r.definitions.Ordered := Table.ordered_filterMap h _
  have hget := (hordered.mem_entries_iff e).mp he
  rw [get?_definitions h] at hget
  obtain ⟨t, ht, _⟩ := Option.map_eq_some_iff.mp hget
  exact contains_of_get? ht

theorem get?_attachTo (r : Registry) (f : Object) (n : String) :
    (r.attachTo f).get? n =
      if "$defs" = n ∧ r.isEmpty = false then some (.object r.definitions) else f.get? n := by
  unfold attachTo
  by_cases hr : r.isEmpty = true
  · rw [if_pos hr, if_neg (by rintro ⟨_, h⟩; rw [hr] at h; cases h)]
  · rw [if_neg hr, Table.get?_insert]
    by_cases hn : "$defs" = n
    · rw [if_pos hn, if_pos ⟨hn, by simpa using hr⟩]
    · rw [if_neg hn, if_neg (by rintro ⟨h, _⟩; exact hn h)]

theorem contains_of_isEmpty (h : r.isEmpty = true) (key : String) : r.contains key = false := by
  have hentries : r.entries.entries = [] := List.isEmpty_iff.mp h
  unfold contains Table.contains Table.get?
  rw [hentries]
  rfl

theorem get?_of_isEmpty (h : r.isEmpty = true) (key : String) : r.get? key = none := by
  cases hk : r.get? key with
  | none => rfl
  | some t =>
    have hc := contains_of_get? hk
    rw [contains_of_isEmpty h] at hc
    cases hc

/-- A registry with keys contains one of them. -/
theorem exists_contains_of_isEmpty (h : r.isEmpty = false) : ∃ key, r.contains key = true := by
  unfold isEmpty Table.isEmpty at h
  cases hentries : r.entries.entries with
  | nil => rw [hentries] at h; cases h
  | cons e es =>
    refine ⟨e.1, ?_⟩
    unfold contains Table.contains Table.get?
    rw [hentries, Table.find, if_pos rfl]
    rfl

end Registry

end TypeSchema
