/-
  Documents that differ in the order of required names.

  `Similar v w` says that two JSON values are equal up to the order of the arrays that stand
  under the key `required`. Two objects have the same keys in the same order then, and similar
  values (`SimilarObject`). Whatever is done to tables alike keeps them similar: a write
  (`SimilarObject.insert`), a table made of entries (`SimilarObject.ofList`), and two ordered
  tables are similar as soon as their look-ups are (`SimilarObject.of_get?`).
-/
import Mathlib.Data.List.Forall2
import TypeSchema.Proofs.Assembly

namespace TypeSchema

/-- Entries of one key whose values `R` relates, or which list the same required names. -/
inductive SimilarEntry (R : Json → Json → Prop) : String × Json → String × Json → Prop
  | same {key v w} : R v w → SimilarEntry R (key, v) (key, w)
  | required {vs ws : List Json} : vs.Perm ws →
    SimilarEntry R ("required", .array vs) ("required", .array ws)

/-- Equal up to the order of the arrays under `required`. -/
inductive Similar : Json → Json → Prop
  | refl (v : Json) : Similar v v
  | array {vs ws : List Json} : List.Forall₂ Similar vs ws → Similar (.array vs) (.array ws)
  | object {t u : Object} : List.Forall₂ (SimilarEntry Similar) t.entries u.entries →
    Similar (.object t) (.object u)

def SimilarObject (t u : Object) : Prop :=
  List.Forall₂ (SimilarEntry Similar) t.entries u.entries

/-! ## Lists and tables -/

section

variable {α β : Type} {R : α → β → Prop} {as : List α} {bs : List β}

theorem exists_of_mem_forall₂ (h : List.Forall₂ R as bs) {a : α} (ha : a ∈ as) :
    ∃ b ∈ bs, R a b := by
  induction h with
  | nil => cases ha
  | cons hr _ ih =>
    rcases List.mem_cons.mp ha with rfl | ha
    · exact ⟨_, List.mem_cons_self, hr⟩
    · obtain ⟨b, hb, hr⟩ := ih ha
      exact ⟨b, List.mem_cons_of_mem _ hb, hr⟩

theorem forall₂_zipWith {γ δ ε ζ : Type} {S : γ → δ → Prop} {T : ε → ζ → Prop} {cs : List γ}
    {ds : List δ} {f : α → γ → ε} {f' : β → δ → ζ}
    (hf : ∀ a b c d, R a b → S c d → T (f a c) (f' b d)) (h : List.Forall₂ R as bs)
    (h' : List.Forall₂ S cs ds) :
    List.Forall₂ T (List.zipWith f as cs) (List.zipWith f' bs ds) := by
  induction h generalizing cs ds with
  | nil => exact .nil
  | cons hab _ ih =>
    cases h' with
    | nil => exact .nil
    | cons hcd h' => exact .cons (hf _ _ _ _ hab hcd) (ih h')

/-- A list that matches another one can be put into any order together with it. -/
theorem exists_perm_zip (h : List.Forall₂ R as bs) {as' : List α} (hperm : as.Perm as') :
    ∃ bs', List.Forall₂ R as' bs' ∧ (as.zip bs).Perm (as'.zip bs') := by
  induction hperm generalizing bs with
  | nil =>
    cases h
    exact ⟨[], .nil, .refl _⟩
  | cons a _ ih =>
    obtain _ | ⟨hab, h⟩ := h
    obtain ⟨bs', h', hzip⟩ := ih h
    exact ⟨_ :: bs', .cons hab h', hzip.cons _⟩
  | swap a a' _ =>
    obtain _ | ⟨hab', h⟩ := h
    obtain _ | ⟨hab, h⟩ := h
    exact ⟨_ :: _ :: _, .cons hab (.cons hab' h), .swap _ _ _⟩
  | trans _ _ ih ih' =>
    obtain ⟨bs₁, h₁, hzip₁⟩ := ih h
    obtain ⟨bs₂, h₂, hzip₂⟩ := ih' h₁
    exact ⟨bs₂, h₂, hzip₁.trans hzip₂⟩

end

namespace Table

variable {α β : Type}

/-- The order of the writes does not show where no key is written twice. -/
theorem ofList_perm {es es' : List (String × α)} (h : es.Perm es')
    (hn : (es.map Prod.fst).Nodup) : ofList es = ofList es' := by
  have hn' : (es'.map Prod.fst).Nodup := (h.map Prod.fst).nodup hn
  refine ext_of_ordered (ordered_ofList es) (ordered_ofList es') fun k => ?_
  rw [get?_ofList hn, get?_ofList hn']
  cases hf : find k es' with
  | none =>
    rw [find_eq_none] at hf ⊢
    exact fun e he => hf e (h.mem_iff.mp he)
  | some v => exact find_of_nodup hn (h.mem_iff.mpr (mem_of_find hf))

/-- Ordered tables whose look-ups match hold matching entries. -/
theorem forall₂_of_get? {R : α → β → Prop} {t : Table α} {u : Table β} (ht : t.Ordered)
    (hu : u.Ordered) (h : ∀ k, Option.Rel R (t.get? k) (u.get? k)) :
    List.Forall₂ (fun e e' => e.1 = e'.1 ∧ R e.2 e'.2) t.entries u.entries := by
  have hkey : ∀ k, k ∈ t.entries.map Prod.fst ↔ k ∈ u.entries.map Prod.fst := by
    intro k
    have hnone : t.get? k = none ↔ u.get? k = none := by
      have hk := h k
      generalize t.get? k = v at hk ⊢
      generalize u.get? k = w at hk ⊢
      cases hk <;> simp
    unfold get? at hnone
    rw [find_eq_none, find_eq_none] at hnone
    rw [← not_iff_not, List.mem_map, List.mem_map]
    push Not
    exact ⟨fun hk => hnone.mp hk, fun hk => hnone.mpr hk⟩
  have hts : (t.entries.map Prod.fst).Pairwise (· < ·) := List.pairwise_map.mpr ht
  have hus : (u.entries.map Prod.fst).Pairwise (· < ·) := List.pairwise_map.mpr hu
  have hkeys : t.entries.map Prod.fst = u.entries.map Prod.fst :=
    ((List.perm_ext_iff_of_nodup ht.nodup hu.nodup).mpr hkey).eq_of_pairwise
      (fun a b _ _ hab hba => absurd (String.lt_trans hab hba) (String.lt_irrefl _)) hts hus
  rw [← List.forall₂_eq_eq_eq, List.forall₂_map_left_iff, List.forall₂_map_right_iff,
    List.forall₂_iff_zip] at hkeys
  refine List.forall₂_iff_zip.mpr ⟨hkeys.1, fun {e e'} hp => ?_⟩
  have heq : e.1 = e'.1 := hkeys.2 hp
  obtain ⟨he, he'⟩ := List.of_mem_zip hp
  have hrel := h e.1
  rw [(ht.mem_entries_iff e).mp he, heq, (hu.mem_entries_iff e').mp he'] at hrel
  cases hrel with
  | some hr => exact ⟨heq, hr⟩

/-- Tables made of matching entries have matching look-ups, also where a key comes twice. -/
theorem rel_get?_ofList {R : α → β → Prop} {es : List (String × α)} {es' : List (String × β)}
    (h : List.Forall₂ (fun e e' => e.1 = e'.1 ∧ R e.2 e'.2) es es') (k : String) :
    Option.Rel R ((ofList es).get? k) ((ofList es').get? k) := by
  have hinsert : ∀ (t : Table α) (u : Table β), (∀ k, Option.Rel R (t.get? k) (u.get? k)) →
      ∀ (e : String × α) (e' : String × β), e.1 = e'.1 ∧ R e.2 e'.2 →
        ∀ k, Option.Rel R ((t.insert e.1 e.2).get? k) ((u.insert e'.1 e'.2).get? k) := by
    intro t u htu e e' he k
    rw [get?_insert, get?_insert, ← he.1]
    split
    · exact .some he.2
    · exact htu k
  exact List.rel_foldl (P := fun (t : Table α) (u : Table β) =>
    ∀ k, Option.Rel R (t.get? k) (u.get? k)) (fun t u htu e e' he => hinsert t u htu e e' he)
      (fun _ => .none) h k

end Table

/-! ## Similar objects -/

theorem SimilarEntry.fst_eq {R : Json → Json → Prop} {e e' : String × Json}
    (h : SimilarEntry R e e') : e.1 = e'.1 := by
  cases h <;> rfl

namespace SimilarObject

variable {t u : Object}

theorem similar (h : SimilarObject t u) : Similar (.object t) (.object u) := .object h

theorem refl (t : Object) : SimilarObject t t :=
  List.forall₂_same.mpr fun e _ => .same (.refl e.2)

theorem insert_entry (h : SimilarObject t u) {e e' : String × Json}
    (he : SimilarEntry Similar e e') : SimilarObject (t.insert e.1 e.2) (u.insert e'.1 e'.2) := by
  obtain ⟨es⟩ := t
  obtain ⟨es'⟩ := u
  obtain ⟨k, v⟩ := e
  obtain ⟨k', w⟩ := e'
  obtain rfl : k = k' := he.fst_eq
  unfold SimilarObject Table.insert at *
  simp only at h ⊢
  -- both writes stop at the same place, as the keys are the same
  induction h with
  | nil => exact .cons he .nil
  | @cons a b _ _ hab hrest ih =>
    rw [Table.place, Table.place, ← hab.fst_eq]
    split
    · exact .cons he hrest
    · split
      · exact .cons he (.cons hab hrest)
      · exact .cons hab ih

theorem insert (h : SimilarObject t u) (key : String) {v w : Json} (hv : Similar v w) :
    SimilarObject (t.insert key v) (u.insert key w) :=
  h.insert_entry (.same hv)

theorem ofList {es es' : List (String × Json)} (h : List.Forall₂ (SimilarEntry Similar) es es') :
    SimilarObject (Table.ofList es) (Table.ofList es') :=
  List.rel_foldl (fun _ _ htu _ _ he => htu.insert_entry he) (refl _) h

/-- Annotations write the same beside similar shapes. -/
theorem write (h : SimilarObject t u) (as : Annotations) (ks : List SiteKeyword) :
    SimilarObject (as.write ks t) (as.write ks u) := by
  unfold Annotations.write
  induction ks generalizing t u with
  | nil => exact h
  | cons k ks ih =>
    refine ih ?_
    unfold Annotations.put
    cases as.value? k with
    | none => exact h
    | some v => exact h.insert k.name (.refl v)

theorem taggedVariant (h : SimilarObject t u) (name : String) :
    SimilarObject (taggedVariant name t) (TypeSchema.taggedVariant name u) :=
  ofList (.cons (.same (.array (.cons h.similar (.cons (.refl _) .nil)))) .nil)

/-- Ordered tables of similar objects are similar. -/
theorem of_get? (ht : t.Ordered) (hu : u.Ordered)
    (h : ∀ k, Option.Rel Similar (t.get? k) (u.get? k)) : SimilarObject t u := by
  refine (Table.forall₂_of_get? ht hu h).imp ?_
  rintro ⟨k, v⟩ ⟨k', w⟩ ⟨rfl, hvw⟩
  exact .same hvw

end SimilarObject

end TypeSchema
