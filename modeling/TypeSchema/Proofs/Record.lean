/-
  The encoding of a record, from any registry.

  The children of a record are built one after the other, each on the registry that the one before
  it has left. The fragment does not show this: under every name stands what the child is built as
  on its own (`RecordFragment`). The registry comes out as it went in, with new definitions that
  are all finished (`Registry.Completed`), since a key that a build adds is ready by the end of it
  (`Builds.ready_of_new`).
-/
import TypeSchema.Proofs.ChildSite
import TypeSchema.Proofs.Growth

namespace TypeSchema

variable {N : Type} {g : Graph N}

/-- `r'` has what `r` has, pending or ready as it was there, and what it has besides is ready. -/
structure Registry.Completed (r r' : Registry) : Prop extends r.Grows r' where
  pending : ∀ key, r.isPending key = true → r'.isPending key = true
  ready : ∀ key, r'.contains key = true → r.contains key = false → ∃ t, r'.get? key = some t

/-- The fragment has one property for each element of the record, no matter which of them was built
first, and requires those that are not optional. -/
structure RecordFragment (g : Graph N) (d : Descriptor N) (f : Object) : Prop where
  properties : ∃ ps : Object, f.get? "properties" = some (.object ps) ∧
    ps.keys.Perm d.elementNames ∧
    ∀ e ∈ d.elements, ∃ t, ps.get? e.name = some (.object t) ∧
      FragmentOf g ⟨e.child g, e.annotations⟩ t
  required : f.get? "required" =
    if ∀ e ∈ d.elements, e.optional = true then none
    else some (.array ((d.elements.filter (!·.optional)).map fun e => .string e.name))

/-! ## New keys -/

section

variable {us : List (Use N)} {fs : List Object} {r r' : Registry}

/-- A key that a build adds has its definition when the build is done. -/
theorem Builds.ready_of_new (h : Builds g r us fs r') {key : String}
    (hnew : r.contains key = false) (hc : r'.contains key = true) :
    ∃ t, r'.get? key = some t := by
  induction h with
  | nil r => rw [hnew] at hc; cases hc
  | @inPlace _ _ _ _ _ _ r r₁ r₂ n _ _ _ _ hvs ihus ihvs =>
    cases hc₁ : r₁.contains key with
    | false => exact ihvs hc₁ hc
    | true => exact (ihus hnew hc₁).imp fun t ht => hvs.get?_mono ht
  | known n _ _ _ _ ih => exact ih hnew hc
  | @defined _ _ _ _ _ _ t new r r₁ r₂ n m _ _ _ hus _ _ hvs ihus ihvs =>
    cases hc₁ : (r₁.insert new (.ready t)).contains key with
    | false => exact ihvs hc₁ hc
    | true =>
      by_cases hkey : new = key
      · exact ⟨t, hvs.get?_mono (by rw [Registry.get?_insert_ready, if_pos hkey])⟩
      · -- the key is another one, which the definition has brought along
        rw [Registry.contains_insert, decide_eq_false hkey, Bool.false_or] at hc₁
        have hpending : (r.insert new .pending).contains key = false := by
          rw [Registry.contains_insert, decide_eq_false hkey, hnew, Bool.false_or]
        obtain ⟨s, hs⟩ := ihus hpending hc₁
        exact ⟨s, hvs.get?_mono (hus.get?_of_pending hs)⟩

theorem Builds.completed (h : Builds g r us fs r') : r.Completed r' where
  toGrows := h.kept.grows
  pending _ := h.kept.isPending
  ready _ hc hnew := h.ready_of_new hnew hc

end

/-! ## The fragment -/

/-- A table made of entries with different keys has those keys. -/
theorem Table.keys_ofList_perm {α : Type} {es : List (String × α)}
    (h : (es.map Prod.fst).Nodup) : (ofList es).keys.Perm (es.map Prod.fst) := by
  refine (List.perm_ext_iff_of_nodup (ordered_ofList es).nodup h).mpr fun key => ?_
  rw [← not_iff_not, ← keys, ← get?_eq_none_iff, get?_ofList h, find_eq_none, List.mem_map]
  push Not
  rfl

namespace Descriptor

variable {d : Descriptor N}

theorem keys_properties {fs : List Object} (h : d.elements.length = fs.length)
    (hn : d.elementNames.Nodup) : (Table.ofList (d.properties fs)).keys.Perm d.elementNames := by
  rw [← map_fst_properties h] at hn ⊢
  exact Table.keys_ofList_perm hn

theorem required_eq_nil_iff : d.required = [] ↔ ∀ e ∈ d.elements, e.optional = true := by
  simp [required]

end Descriptor

theorem RecordFragment.of_finish {d : Descriptor N} {as : Annotations} {us : List (Use N)}
    {fs : List Object} {f : Object} (hk : d.kind = .record) (hn : d.elementNames.Nodup)
    (hfs : List.Forall₂ (FragmentOf g) (d.elements.map (·.use g)) fs)
    (hf : d.finish as us fs = .ok f) : RecordFragment g d f := by
  have hfs := List.forall₂_map_left_iff.mp hfs
  have hlength : d.elements.length = fs.length := hfs.length_eq
  have hshape := SameShape.finish hf
  constructor
  · refine ⟨Table.ofList (d.properties fs), ?_, d.keys_properties hlength hn, fun e he => ?_⟩
    · rw [hshape "properties" (by decide), Descriptor.get?_shape_record _ fs hk]
      rfl
    · obtain ⟨t, hp⟩ := exists_mem_zip_of_left hlength he
      exact ⟨t, Descriptor.get?_properties hlength hn hp, List.forall₂_iff_zip.mp hfs |>.2 hp⟩
  · rw [hshape "required" (by decide), Descriptor.get?_shape_record _ fs hk]
    by_cases hrequired : d.required = []
    · rw [if_neg (by simp [hrequired]), if_pos (Descriptor.required_eq_nil_iff.mp hrequired)]
      rfl
    · rw [if_pos ⟨rfl, hrequired⟩, if_neg (mt Descriptor.required_eq_nil_iff.mpr hrequired)]
      rw [Json.strings, Descriptor.required, List.map_map]
      rfl

/-- A record that is encoded from whatever registry has a property for each of its elements and no
others, each with the fragment that its child has on its own. The registry keeps what it has, and
what comes to it is finished. -/
theorem record_of_encoded {n : Nat} {d : Descriptor N} {as : Annotations} {r r' : Registry}
    {f : Object} (hk : d.kind = .record) (hn : d.elementNames.Nodup)
    (h : Encoding.record (Generator.context {} g n d as) r = .ok f r') :
    RecordFragment g d f ∧ r.Completed r' := by
  rw [encode_record _ hk []] at h
  obtain ⟨fs, r₁, hfs, h⟩ := bind_eq_ok.mp h
  obtain ⟨hf, rfl⟩ := ofExcept_eq_ok.mp h
  have hrun : (d.elements.map (·.use g)).mapM (Use.build g n) r = .ok fs r₁ := by
    rw [List.mapM_map]
    exact hfs
  have hbuilds : Builds g r (d.elements.map (·.use g)) fs r₁ :=
    .of_mapM (fun _ _ _ _ => builds_of_build) hrun
  exact ⟨.of_finish hk hn (FragmentOf.of_mapM hrun) hf, hbuilds.completed⟩

/-! ## Two links that share a definition -/

/-- The chain holds two links, of which the second may be missing and is described on its own. -/
def chain : Descriptor Unit where
  serialName := "Chain?"
  kind := .record
  nullable := true
  elements := [{ name := "last", target := () },
    { name := "first", target := (), optional := true, annotations := [.text .title "First"] }]

/-- Another definition is under construction, and one is finished. -/
def halfway : Registry :=
  (({} : Registry).insert "Chain" .pending).insert "Anchor" (.ready (pointer "Link"))

theorem record_of_encoded_chain :
    ∃ f r', Encoding.record
        (Generator.context {} linkGraph 4 chain [.text .comment "two"]) halfway = .ok f r' ∧
      RecordFragment linkGraph chain f ∧ halfway.Completed r' := by
  obtain ⟨f, r', h⟩ : ∃ f r', Encoding.record
      (Generator.context {} linkGraph 4 chain [.text .comment "two"]) halfway = .ok f r' :=
    ⟨_, _, rfl⟩
  exact ⟨f, r', h, record_of_encoded rfl (by decide) h⟩

end TypeSchema
