/-
  What a builder that fails leaves behind.

  A request marks its key as pending and then runs its builder; only a builder that succeeds
  turns the mark into a definition. So the error of a builder leaves the key pending with nobody
  at work on it: the key is `Abandoned`. As a registry keeps what is registered (`Runs.kept`,
  `Runs.kept_before`), no later caller can mend that. Every request for the key is answered with
  the pointer, no builder is run for it again, and the pointer leads nowhere
  (`Script.abandoned_of_failed`). Only a request without a builder fails and leaves no trace.
-/
import TypeSchema.Proofs.Registration

namespace TypeSchema

/-! ## What a run keeps -/

namespace Runs

variable {ks : List String} {r r' : Registry} {s : Script} {es : List Event}

theorem kept (h : Runs ks r s es r') : r.Kept r' := h.orderly.kept

/-- Every call of a run begins on a registry that keeps what was there at the start. -/
theorem kept_before (h : Runs ks r s es r') :
    ∀ e ∈ es, ∀ c, e.call? = some c → r.Kept c.before := by
  induction h with
  | done result => exact List.forall_mem_singleton.mpr fun c hc => by cases hc
  | look _ ih => exact List.forall_mem_cons.mpr ⟨(fun c hc => by cases hc), ih⟩
  | known _ _ ih | missing _ _ ih =>
    refine List.forall_mem_cons.mpr ⟨(fun c hc => by cases hc), List.forall_mem_cons.mpr ⟨?_, ih⟩⟩
    exact fun c hc => Option.some.inj hc ▸ .refl _
  | @built ks r key _ _ _ es es' t r₁ _ hnew hb _ ihb ih =>
    have hstart : r.Kept (r.insert key .pending) := Registry.kept_insert hnew _
    have hend : r.Kept (r₁.insert key (.ready t)) := (hstart.trans hb.kept).insert hnew _
    refine List.forall_mem_cons.mpr ⟨(fun c hc => by cases hc), List.forall_mem_append.mpr
      ⟨fun e he c hc => hstart.trans (ihb e he c hc), List.forall_mem_cons.mpr ⟨?_, ?_⟩⟩⟩
    · exact fun c hc => Option.some.inj hc ▸ .refl _
    · exact fun e he c hc => hend.trans (ih e he c hc)
  | @failed ks r key _ _ _ es es' _ r₁ _ hnew hb _ ihb ih =>
    have hstart : r.Kept (r.insert key .pending) := Registry.kept_insert hnew _
    refine List.forall_mem_cons.mpr ⟨(fun c hc => by cases hc), List.forall_mem_append.mpr
      ⟨fun e he c hc => hstart.trans (ihb e he c hc), List.forall_mem_cons.mpr ⟨?_, ?_⟩⟩⟩
    · exact fun c hc => Option.some.inj hc ▸ .refl _
    · exact fun e he c hc => (hstart.trans hb.kept).trans (ih e he c hc)

theorem ordered (h : Runs ks r s es r') (hr : r.entries.Ordered) : r'.entries.Ordered := by
  induction h with
  | done result => exact hr
  | look _ ih | known _ _ ih | missing _ _ ih => exact ih hr
  | built _ _ _ ihb ih =>
    exact ih (Table.ordered_insert (ihb (Table.ordered_insert hr _ _)) _ _)
  | failed _ _ _ ihb ih => exact ih (ihb (Table.ordered_insert hr _ _))

end Runs

/-! ## Abandoned keys -/

/-- The key is pending for good: whatever is done with the registry, the key stays pending, a
request for it gets the pointer without a builder being run, and it is never defined. -/
structure Registry.Abandoned (r : Registry) (key : String) : Prop where
  pending : r.isPending key = true
  stays : ∀ s : Script, ∀ e ∈ s.trace [] r, e.registry.isPending key = true
  answered : ∀ s : Script, ∀ e ∈ s.trace [] r, ∀ c, e.call? = some c → c.key = key →
    c.built = none ∧ c.answer = .ok (reference key c.nullable)
  undefined : ∀ s : Script, (Build.after s.run r).definitions.get? key = none

variable {r r₁ : Registry} {key : String}

/-- A call for a key that is pending where it begins runs no builder. -/
theorem Call.Lawful.of_pending {c : Call} {after : Registry} (h : c.Lawful after)
    (hp : c.before.isPending c.key = true) :
    c.built = none ∧ c.answer = .ok (reference c.key c.nullable) := by
  have hknown : c.before.contains c.key = true := Registry.contains_of_isPending hp
  refine ⟨?_, (h.known hknown).1⟩
  cases hb : c.built with
  | none => rfl
  | some answer =>
    have hnew := (h.built_iff.mp (by rw [hb]; rfl)).2
    rw [hknown] at hnew
    cases hnew

/-- A key that is pending between two runs is pending for good: whoever could finish it is no
longer at work. -/
theorem Registry.abandoned_of_isPending (hordered : r.entries.Ordered)
    (hp : r.isPending key = true) : r.Abandoned key where
  pending := hp
  stays := fun s e he => ((runs_trace s [] r).orderly.kept_at e he).isPending hp
  answered := by
    rintro s e he c hc rfl
    have hbefore := ((runs_trace s [] r).kept_before e he c hc).isPending hp
    exact ((runs_trace s [] r).orderly.lawful e he c hc).of_pending hbefore
  undefined := fun s => by
    have hruns := runs_trace s [] r
    rw [Registry.get?_definitions (hruns.ordered hordered),
      Registry.get?_of_isPending (hruns.kept.isPending hp)]
    rfl

/-- A request for a new key that fails. Without a builder it leaves the registry as it was. With
one, it passes on the error of its builder and the registry that the builder left, and there the
key is abandoned. So the key is forgotten exactly if there was no builder to run. -/
theorem Script.abandoned_of_failed {builder : Option Script} {nullable : Bool} {e : Failure}
    (hordered : r.entries.Ordered) (hnew : r.contains key = false)
    (hfail : TypeSchema.request key nullable (builder.map run) r = .error e r₁) :
    (r₁.contains key = false ↔ builder = none) ∧
    (builder = none → e = .schema (.missingRefBuilder key) ∧ r₁ = r) ∧
    ∀ b, builder = some b →
      b.run (r.insert key .pending) = .error e r₁ ∧ r.Kept r₁ ∧ r₁.Abandoned key := by
  cases builder with
  | none =>
    have hrun := request_unknown_none hnew nullable
    rw [Option.map_none, hrun] at hfail
    cases hfail
    exact ⟨⟨fun _ => rfl, fun _ => hnew⟩, fun _ => ⟨rfl, rfl⟩, fun b hb => by cases hb⟩
  | some b =>
    have hruns := runs_trace b [key] (r.insert key .pending)
    rw [Option.map_some, request_unknown_some hnew] at hfail
    cases hrun : b.run (r.insert key .pending) with
    | ok t r₂ =>
      rw [hrun] at hfail
      cases hfail
    | error e' r₂ =>
      rw [hrun] at hfail
      cases hfail
      rw [Build.after, hrun] at hruns
      have hp : r₁.isPending key = true :=
        hruns.kept.isPending (Registry.isPending_insert_pending r key)
      have habandoned : r₁.Abandoned key :=
        Registry.abandoned_of_isPending (hruns.ordered (Table.ordered_insert hordered _ _)) hp
      refine ⟨⟨fun hc => ?_, fun hb => by cases hb⟩, fun hb => (by cases hb), fun b' hb => ?_⟩
      · rw [Registry.contains_of_isPending hp] at hc
        cases hc
      · cases hb
        exact ⟨hrun, (Registry.kept_insert hnew _).trans hruns.kept, habandoned⟩

/-- A builder that registers another key and fails then, on the empty registry. -/
theorem Script.abandoned_empty :
    let b := Script.request "B" false (some (.done (.ok nullFragment))) fun _ =>
      .done (.error (.schema (.noVariants "x")))
    let r : Registry := {}
    let r₁ := (r.insert "A" .pending).insert "B" (.ready nullFragment)
    r.entries.Ordered ∧ r.contains "A" = false ∧
      TypeSchema.request "A" false (some b.run) r = .error (.schema (.noVariants "x")) r₁ ∧
      r₁.Abandoned "A" := by
  intro b r r₁
  have hordered : r.entries.Ordered := Table.ordered_empty
  have hfail : TypeSchema.request "A" false (some b.run) r =
      .error (.schema (.noVariants "x")) r₁ := rfl
  obtain ⟨_, _, hfailed⟩ := @abandoned_of_failed r r₁ "A" (some b) false _ hordered rfl hfail
  exact ⟨hordered, rfl, hfail, (hfailed b rfl).2.2⟩

/-- A failed build is not forgotten. After the error the key is still known and pending, so a
builder that would succeed is not run, and the pointer that the second caller gets has no
definition. -/
theorem Script.not_forgotten_of_failed :
    ¬ ∀ (r r₁ : Registry) (key : String) (nullable : Bool) (b : Script) (e : Failure),
      r.entries.Ordered → r.contains key = false →
      TypeSchema.request key nullable (some b.run) r = .error e r₁ →
      r₁.contains key = false ∧ r₁.isPending key = false ∧
      ∀ (b' : Script) (t : Object) (r₂ : Registry), b'.run (r₁.insert key .pending) = .ok t r₂ →
        (Build.after (TypeSchema.request key nullable (some b'.run)) r₁).definitions.get? key =
          some (.object t) := by
  intro h
  have hcontains := (h {} _ "A" false (.done (.error (.schema (.noVariants "x")))) _
    Table.ordered_empty rfl rfl).1
  cases hcontains

end TypeSchema
