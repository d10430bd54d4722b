/-
  The laws of a registry, over every run of its callers.

  A run is cut into segments. `Orderly r es r'` holds of the events `es` on the way from the
  registry `r` to `r'`: what was registered in `r` stays as it is, known keys stay known and
  finished fragments stay finished from event to event, every call is answered as its key and its
  builder say (`Call.Lawful`), and no key has its builder run twice. Segments that meet are joined
  (`Orderly.append`), and a request encloses the segment of its builder (`Orderly.request`); so
  every run is orderly (`Runs.orderly`), however deep its builders nest and whichever of them
  fail.
-/
import TypeSchema.Proofs.Growth
import TypeSchema.Proofs.Script

namespace TypeSchema

/-! ## One call -/

/-- What a call does, and the registry it ends in, as its key and its builder decide it. -/
structure Call.Lawful (c : Call) (after : Registry) : Prop where
  built_iff : c.built.isSome = true ↔ c.supplied = true ∧ c.before.contains c.key = false
  pointer : ∀ t, c.answer = .ok t → t = reference c.key c.nullable
  known : c.before.contains c.key = true →
    c.answer = .ok (reference c.key c.nullable) ∧ after = c.before
  /-- The error for a missing builder comes from the call itself, or out of its builder. -/
  missing_iff : ∀ key, c.answer = .error (.schema (.missingRefBuilder key)) ↔
    (key = c.key ∧ c.before.contains c.key = false ∧ c.supplied = false) ∨
      c.built = some (.error (.schema (.missingRefBuilder key)))
  missing_after : c.before.contains c.key = false → c.supplied = false → after = c.before
  finished : ∀ t, c.built = some (.ok t) →
    c.answer = .ok (reference c.key c.nullable) ∧ after.get? c.key = some t
  failed : ∀ e, c.built = some (.error e) →
    c.answer = .error e ∧ after.isPending c.key = true

section

variable {r r₁ : Registry} {key : String} (nullable : Bool)

theorem Call.lawful_known (supplied : Bool) (hc : r.contains key = true) :
    Call.Lawful ⟨key, nullable, supplied, r, none, .ok (reference key nullable)⟩ r where
  built_iff := by simp [hc]
  pointer := fun t ht => (Except.ok.inj ht).symm
  known := fun _ => ⟨rfl, rfl⟩
  missing_iff := by simp [hc]
  missing_after := fun _ _ => rfl
  finished := fun t ht => by cases ht
  failed := fun e he => by cases he

theorem Call.lawful_missing (hc : r.contains key = false) :
    Call.Lawful ⟨key, nullable, false, r, none, .error (.schema (.missingRefBuilder key))⟩ r where
  built_iff := by simp
  pointer := fun t ht => by cases ht
  known := fun hk => by rw [hc] at hk; cases hk
  missing_iff := by simp [hc, eq_comm]
  missing_after := fun _ _ => rfl
  finished := fun t ht => by cases ht
  failed := fun e he => by cases he

theorem Call.lawful_built (t : Object) (hc : r.contains key = false) :
    Call.Lawful ⟨key, nullable, true, r, some (.ok t), .ok (reference key nullable)⟩
      (r₁.insert key (.ready t)) where
  built_iff := by simp [hc]
  pointer := fun t ht => (Except.ok.inj ht).symm
  known := fun hk => by rw [hc] at hk; cases hk
  missing_iff := by simp
  missing_after := fun _ h => by cases h
  finished := fun t' ht => by
    cases ht
    exact ⟨rfl, by rw [Registry.get?_insert_ready, if_pos rfl]⟩
  failed := fun e he => by cases he

theorem Call.lawful_failed (e : Failure) (hc : r.contains key = false)
    (hp : r₁.isPending key = true) :
    Call.Lawful ⟨key, nullable, true, r, some (.error e), .error e⟩ r₁ where
  built_iff := by simp [hc]
  pointer := fun t ht => by cases ht
  known := fun hk => by rw [hc] at hk; cases hk
  missing_iff := by simp
  missing_after := fun _ h => by cases h
  finished := fun t ht => by cases ht
  failed := fun e' he => by
    cases he
    exact ⟨rfl, hp⟩

end

/-! ## Segments of a run -/

/-- The events `es` lead from the registry `r` to `r'`, and keep its laws on the way. -/
structure Orderly (r : Registry) (es : List Event) (r' : Registry) : Prop where
  kept : r.Kept r'
  kept_at : ∀ e ∈ es, r.Kept e.registry
  grows : es.Pairwise fun e e' => e.registry.Grows e'.registry
  grows_end : ∀ e ∈ es, e.registry.Grows r'
  lawful : ∀ e ∈ es, ∀ c, e.call? = some c → c.Lawful e.registry
  /-- A builder is run for a key that is new, and the key is known ever after. -/
  fresh : ∀ e ∈ es, ∀ c, e.call? = some c → c.built.isSome = true →
    r.contains c.key = false ∧ r'.contains c.key = true
  once : es.Pairwise fun e e' => ∀ c c', e.call? = some c → e'.call? = some c' →
    c.built.isSome = true → c'.built.isSome = true → c.key ≠ c'.key
  /-- A finished fragment was there, or a builder gave it. -/
  source : ∀ key t, r'.get? key = some t → r.get? key = some t ∨
    ∃ e ∈ es, ∃ c, e.call? = some c ∧ c.key = key ∧ c.built = some (.ok t)

namespace Orderly

variable {r r₁ r₂ r' : Registry} {es es' : List Event}

/-- An event that leaves the registry alone. -/
theorem still (e : Event) (hlawful : ∀ c, e.call? = some c → c.Lawful e.registry)
    (hbuilt : ∀ c, e.call? = some c → c.built = none) : Orderly e.registry [e] e.registry where
  kept := .refl _
  kept_at := fun e' he => List.mem_singleton.mp he ▸ .refl _
  grows := List.pairwise_singleton _ _
  grows_end := fun e' he => List.mem_singleton.mp he ▸ .refl _
  lawful := fun e' he => List.mem_singleton.mp he ▸ hlawful
  fresh := fun e' he c hc hb => by
    rw [hbuilt c (List.mem_singleton.mp he ▸ hc)] at hb
    cases hb
  once := List.pairwise_singleton _ _
  source := fun key t ht => .inl ht

theorem append (h : Orderly r es r₁) (h' : Orderly r₁ es' r') : Orderly r (es ++ es') r' where
  kept := h.kept.trans h'.kept
  kept_at := List.forall_mem_append.mpr
    ⟨h.kept_at, fun e he => h.kept.trans (h'.kept_at e he)⟩
  grows := List.pairwise_append.mpr ⟨h.grows, h'.grows, fun e he e' he' =>
    (h.grows_end e he).trans (h'.kept_at e' he').grows⟩
  grows_end := List.forall_mem_append.mpr
    ⟨fun e he => (h.grows_end e he).trans h'.kept.grows, h'.grows_end⟩
  lawful := List.forall_mem_append.mpr ⟨h.lawful, h'.lawful⟩
  fresh := fun e he c hc hb => by
    rcases List.mem_append.mp he with he | he
    · obtain ⟨hnew, hknown⟩ := h.fresh e he c hc hb
      exact ⟨hnew, h'.kept.contains hknown⟩
    · obtain ⟨hnew, hknown⟩ := h'.fresh e he c hc hb
      exact ⟨h.kept.grows.not_contains hnew, hknown⟩
  once := by
    -- a key built in the first segment is known in the second, where only new keys are built
    refine List.pairwise_append.mpr ⟨h.once, h'.once, fun e he e' he' c c' hc hc' hb hb' heq => ?_⟩
    have hknown := (h.fresh e he c hc hb).2
    rw [heq, (h'.fresh e' he' c' hc' hb').1] at hknown
    cases hknown
  source := fun key t ht => by
    rcases h'.source key t ht with ht | ⟨e, he, hbuilt⟩
    · rcases h.source key t ht with ht | ⟨e, he, hbuilt⟩
      · exact .inl ht
      · exact .inr ⟨e, List.mem_append_left _ he, hbuilt⟩
    · exact .inr ⟨e, List.mem_append_right _ he, hbuilt⟩

/-- A request for a new key: the segment of its builder, and the event at its end. -/
theorem request {ks : List String} {c : Call} (hnew : r.contains c.key = false)
    (h : Orderly (r.insert c.key .pending) es r₁) (hlawful : c.Lawful r₂) (hkept : r.Kept r₂)
    (hgrows : r₁.Grows r₂)
    (hsource : ∀ key t, r₂.get? key = some t →
      r₁.get? key = some t ∨ c.key = key ∧ c.built = some (.ok t)) :
    Orderly r (es ++ [⟨ks, r₂, some c⟩]) r₂ := by
  have hpending : (r.insert c.key .pending).contains c.key = true :=
    Registry.contains_insert_self r c.key .pending
  have hstart : r.Kept (r.insert c.key .pending) := Registry.kept_insert hnew _
  refine
    { kept := hkept
      kept_at := List.forall_mem_append.mpr
        ⟨fun e he => hstart.trans (h.kept_at e he), List.forall_mem_singleton.mpr hkept⟩
      grows := List.pairwise_append.mpr ⟨h.grows, List.pairwise_singleton _ _, fun e he =>
        List.forall_mem_singleton.mpr ((h.grows_end e he).trans hgrows)⟩
      grows_end := List.forall_mem_append.mpr
        ⟨fun e he => (h.grows_end e he).trans hgrows, List.forall_mem_singleton.mpr (.refl r₂)⟩
      lawful := List.forall_mem_append.mpr ⟨h.lawful, List.forall_mem_singleton.mpr ?lawful⟩
      fresh := List.forall_mem_append.mpr ⟨?freshInside, List.forall_mem_singleton.mpr ?fresh⟩
      once := List.pairwise_append.mpr ⟨h.once, List.pairwise_singleton _ _, fun e he =>
        List.forall_mem_singleton.mpr ?once⟩
      source := ?source }
  case lawful =>
    intro c' hc'
    exact Option.some.inj hc' ▸ hlawful
  case freshInside =>
    intro e he c' hc' hb
    obtain ⟨hnew', hknown⟩ := h.fresh e he c' hc' hb
    exact ⟨hstart.grows.not_contains hnew', hgrows.contains _ hknown⟩
  case fresh =>
    intro c' hc' _
    cases hc'
    exact ⟨hnew, hgrows.contains _ (h.kept.contains hpending)⟩
  case once =>
    -- the key is pending while its builder runs, and inside only new keys are built
    intro c₁ c₂ hc₁ hc₂ hb _ heq
    cases hc₂
    have hfresh := (h.fresh e he c₁ hc₁ hb).1
    rw [heq, hpending] at hfresh
    cases hfresh
  case source =>
    intro key t ht
    rcases hsource key t ht with ht | ⟨hkey, hb⟩
    · rcases h.source key t ht with ht | ⟨e, he, hb⟩
      · rw [Registry.get?_insert_pending] at ht
        split at ht
        · cases ht
        · exact .inl ht
      · exact .inr ⟨e, List.mem_append_left _ he, hb⟩
    · exact .inr ⟨_, List.mem_append_right _ List.mem_cons_self, c, rfl, hkey, hb⟩

variable {key : String}

theorem look (ks : List String) (r : Registry) : Orderly r [⟨ks, r, none⟩] r :=
  still ⟨ks, r, none⟩ (fun _ h => by cases h) (fun _ h => by cases h)

/-- A call that runs no builder changes nothing. -/
theorem answered (ks : List String) {c : Call} (h : c.Lawful r) (hb : c.built = none) :
    Orderly r [⟨ks, r, some c⟩] r :=
  still ⟨ks, r, some c⟩ (fun _ hc => Option.some.inj hc ▸ h) (fun _ hc => Option.some.inj hc ▸ hb)

theorem built (ks : List String) (nullable : Bool) (hnew : r.contains key = false)
    (h : Orderly (r.insert key .pending) es r₁) (t : Object) :
    Orderly r (es ++ [⟨ks, r₁.insert key (.ready t),
      some ⟨key, nullable, true, r, some (.ok t), .ok (reference key nullable)⟩⟩])
      (r₁.insert key (.ready t)) := by
  have hkept : r.Kept r₁ := (Registry.kept_insert hnew _).trans h.kept
  have hpending : r₁.isPending key = true :=
    h.kept.isPending (Registry.isPending_insert_pending r key)
  refine request hnew h (Call.lawful_built nullable t hnew) (hkept.insert hnew _)
    (Registry.grows_insert_ready hpending t) fun key' t' ht => ?_
  rw [Registry.get?_insert_ready] at ht
  split at ht
  · next heq => exact .inr ⟨heq, by rw [Option.some.inj ht]⟩
  · exact .inl ht

theorem failed (ks : List String) (nullable : Bool) (hnew : r.contains key = false)
    (h : Orderly (r.insert key .pending) es r₁) (e : Failure) :
    Orderly r (es ++ [⟨ks, r₁,
      some ⟨key, nullable, true, r, some (.error e), .error e⟩⟩]) r₁ := by
  have hpending : r₁.isPending key = true :=
    h.kept.isPending (Registry.isPending_insert_pending r key)
  exact request hnew h (Call.lawful_failed nullable e hnew hpending)
    ((Registry.kept_insert hnew _).trans h.kept) (.refl r₁) fun _ _ ht => .inl ht

/-- The fragments at the end are those of the start and what the builders gave. -/
theorem get?_iff (h : Orderly r es r') (key : String) (t : Object) :
    r'.get? key = some t ↔ r.get? key = some t ∨
      ∃ e ∈ es, ∃ c, e.call? = some c ∧ c.key = key ∧ c.built = some (.ok t) := by
  refine ⟨h.source key t, ?_⟩
  rintro (ht | ⟨e, he, c, hc, rfl, hb⟩)
  · exact h.kept.grows.get? key t ht
  · exact (h.grows_end e he).get? c.key t (((h.lawful e he c hc).finished t hb).2)

end Orderly

/-! ## Runs -/

/-- The keys whose builders are at work are pending now, and were when the call began. -/
def Event.Pending (e : Event) : Prop :=
  ∀ key ∈ e.building, e.registry.isPending key = true ∧
    ∀ c, e.call? = some c → c.before.isPending key = true

section

variable {ks : List String} {r : Registry}

theorem Event.Pending.look (h : ∀ key ∈ ks, r.isPending key = true) :
    Event.Pending ⟨ks, r, none⟩ := fun key hkey => ⟨h key hkey, fun _ hc => by cases hc⟩

theorem Event.Pending.call {c : Call} (hbefore : ∀ key ∈ ks, c.before.isPending key = true)
    (h : ∀ key ∈ ks, r.isPending key = true) : Event.Pending ⟨ks, r, some c⟩ := fun key hkey =>
  ⟨h key hkey, fun _ hc => Option.some.inj hc ▸ hbefore key hkey⟩

/-- Where the builder of a new key starts, the key is pending beside those around it. -/
theorem pending_cons {key : String} (hc : r.contains key = false)
    (h : ∀ k ∈ ks, r.isPending k = true) :
    ∀ k ∈ key :: ks, (r.insert key .pending).isPending k = true :=
  List.forall_mem_cons.mpr ⟨Registry.isPending_insert_pending r key, fun k hk =>
    (Registry.kept_insert hc _).isPending (h k hk)⟩

end

namespace Runs

variable {ks : List String} {r r' : Registry} {s : Script} {es : List Event}

theorem orderly (h : Runs ks r s es r') : Orderly r es r' := by
  induction h with
  | @done ks r result => exact .look ks r
  | @look ks r _ _ _ _ ih => exact (Orderly.look ks r).append ih
  | @known ks r key nullable builder _ _ _ hc _ ih =>
    have hcall := Orderly.answered ks (Call.lawful_known nullable builder.isSome hc) rfl
    exact (Orderly.look ks r).append (hcall.append ih)
  | @missing ks r key nullable _ _ _ hc _ ih =>
    have hcall := Orderly.answered ks (Call.lawful_missing nullable hc) rfl
    exact (Orderly.look ks r).append (hcall.append ih)
  | @built ks r key nullable _ _ es es' t _ _ hc _ _ ihb ih =>
    have hcall := Orderly.built ks nullable hc ihb t
    rw [List.append_cons]
    exact (Orderly.look ks r).append (hcall.append ih)
  | @failed ks r key nullable _ _ es es' e _ _ hc _ _ ihb ih =>
    have hcall := Orderly.failed ks nullable hc ihb e
    rw [List.append_cons]
    exact (Orderly.look ks r).append (hcall.append ih)

/-- The keys whose builders are at work are pending, at every event and where its call began. -/
theorem pending (h : Runs ks r s es r') (hks : ∀ key ∈ ks, r.isPending key = true) :
    ∀ e ∈ es, e.Pending := by
  induction h with
  | done result => exact List.forall_mem_singleton.mpr (.look hks)
  | look _ ih => exact List.forall_mem_cons.mpr ⟨.look hks, ih hks⟩
  | known _ _ ih | missing _ _ ih =>
    exact List.forall_mem_cons.mpr ⟨.look hks, List.forall_mem_cons.mpr ⟨.call hks hks, ih hks⟩⟩
  | @built ks r key _ _ _ es es' t r₁ _ hc hb _ ihb ih =>
    have hkept : r.Kept (r₁.insert key (.ready t)) :=
      ((Registry.kept_insert hc _).trans hb.orderly.kept).insert hc _
    have hks₁ : ∀ k ∈ ks, (r₁.insert key (.ready t)).isPending k = true := fun k hk =>
      hkept.isPending (hks k hk)
    exact List.forall_mem_cons.mpr ⟨.look hks, List.forall_mem_append.mpr
      ⟨ihb (pending_cons hc hks), List.forall_mem_cons.mpr ⟨.call hks hks₁, ih hks₁⟩⟩⟩
  | @failed ks r key _ _ _ es es' _ r₁ _ hc hb _ ihb ih =>
    have hkept : r.Kept r₁ := (Registry.kept_insert hc _).trans hb.orderly.kept
    have hks₁ : ∀ k ∈ ks, r₁.isPending k = true := fun k hk => hkept.isPending (hks k hk)
    exact List.forall_mem_cons.mpr ⟨.look hks, List.forall_mem_append.mpr
      ⟨ihb (pending_cons hc hks), List.forall_mem_cons.mpr ⟨.call hks hks₁, ih hks₁⟩⟩⟩

end Runs

/-- While the builder of a key is at work, the key is pending, and who asks for it gets the
pointer: no builder is run, and nothing changes. -/
structure Event.InFlight (e : Event) : Prop where
  pending : ∀ key ∈ e.building, e.registry.isPending key = true
  answered : ∀ c, e.call? = some c → c.key ∈ e.building →
    c.built = none ∧ c.answer = .ok (reference c.key c.nullable) ∧ e.registry = c.before

/-- Whatever a caller does with a registry, and however its builders nest and fail, the run is
orderly, the fragments at its end are those of its start and the results of the builders that
succeeded, and a key is in flight while its builder is at work. -/
theorem Script.registry_laws (s : Script) (r : Registry) :
    Orderly r (s.trace [] r) (Build.after s.run r) ∧
    (∀ key t, (Build.after s.run r).get? key = some t ↔ r.get? key = some t ∨
      ∃ e ∈ s.trace [] r, ∃ c, e.call? = some c ∧ c.key = key ∧ c.built = some (.ok t)) ∧
    ∀ e ∈ s.trace [] r, e.InFlight := by
  have hruns := runs_trace s [] r
  have horderly := hruns.orderly
  have hpending := hruns.pending fun key hkey => absurd hkey List.not_mem_nil
  refine ⟨horderly, horderly.get?_iff, fun e he => ⟨fun key hkey => (hpending e he key hkey).1, ?_⟩⟩
  intro c hc hkey
  have hlawful := horderly.lawful e he c hc
  have hknown : c.before.contains c.key = true :=
    Registry.contains_of_isPending ((hpending e he c.key hkey).2 c hc)
  obtain ⟨hanswer, hafter⟩ := hlawful.known hknown
  refine ⟨?_, hanswer, hafter⟩
  cases hb : c.built with
  | none => rfl
  | some answer =>
    have hnew := (hlawful.built_iff.mp (by rw [hb]; rfl)).2
    rw [hknown] at hnew
    cases hnew

/-- A call fails for want of a builder though it has one: its builder asks for another key without
one, and fails with the error it gets. The key of the call stays pending. -/
theorem missingRefBuilder_of_builder :
    ¬ ∀ (s : Script) (r : Registry), ∀ e ∈ s.trace [] r, ∀ c, e.call? = some c →
      ((∃ key, c.answer = .error (.schema (.missingRefBuilder key))) ↔
        c.before.contains c.key = false ∧ c.supplied = false) := by
  intro h
  let s := Script.request "A" false (some (.request "B" false none .done)) .done
  have htrace : ∃ e, (s.trace [] {})[4]? = some e ∧ ∃ c, e.call? = some c ∧
      c.answer = .error (.schema (.missingRefBuilder "B")) ∧ c.supplied = true :=
    ⟨_, rfl, _, rfl, rfl, rfl⟩
  obtain ⟨e, he, c, hc, hanswer, hsupplied⟩ := htrace
  have hmissing := ((h s {} e (List.mem_of_getElem? he) c hc).mp ⟨"B", hanswer⟩).2
  rw [hsupplied] at hmissing
  cases hmissing

end TypeSchema
