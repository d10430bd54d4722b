/-
  How registries grow.

  A registry forgets nothing: `r.Grows r'` says that the keys of `r` are known in `r'`, and that
  its finished fragments stand there unchanged. While a definition is built more is true, as the
  keys that are pending outside it stay pending (`r.Kept r'`). The two are orders, and every
  successful build is a step in both (`Builds.kept`).
-/
import TypeSchema.Proofs.Derivation

namespace TypeSchema

namespace Registry

/-- What is registered in `r` stands in `r'` as it did, pending or ready. -/
def Kept (r r' : Registry) : Prop :=
  ∀ key, r.contains key = true → r'.entries.get? key = r.entries.get? key

/-- Known keys stay known, and finished fragments stay as they are. -/
structure Grows (r r' : Registry) : Prop where
  contains : ∀ key, r.contains key = true → r'.contains key = true
  get? : ∀ key t, r.get? key = some t → r'.get? key = some t

variable {r r' r'' : Registry} {key : String}

theorem Grows.refl (r : Registry) : r.Grows r := ⟨fun _ h => h, fun _ _ h => h⟩

theorem Grows.trans (h : r.Grows r') (h' : r'.Grows r'') : r.Grows r'' :=
  ⟨fun key hc => h'.contains key (h.contains key hc),
    fun key t ht => h'.get? key t (h.get? key t ht)⟩

theorem Grows.not_contains (h : r.Grows r') (hc : r'.contains key = false) :
    r.contains key = false := by
  cases hk : r.contains key with
  | false => rfl
  | true => rw [h.contains key hk] at hc; cases hc

theorem Kept.refl (r : Registry) : r.Kept r := fun _ _ => rfl

theorem Kept.contains (h : r.Kept r') (hc : r.contains key = true) : r'.contains key = true :=
  contains_of_entry_eq (h key hc) hc

theorem Kept.trans (h : r.Kept r') (h' : r'.Kept r'') : r.Kept r'' := fun key hc =>
  (h' key (h.contains hc)).trans (h key hc)

theorem Kept.grows (h : r.Kept r') : r.Grows r' := by
  refine ⟨fun key => h.contains, fun key t ht => ?_⟩
  have hentry := h key (contains_of_get? ht)
  unfold Registry.get? at ht ⊢
  rw [hentry, ht]

theorem contains_of_isPending (h : r.isPending key = true) : r.contains key = true := by
  rw [contains_eq, h, Bool.true_or]

theorem get?_of_isPending (h : r.isPending key = true) : r.get? key = none := by
  unfold isPending at h
  unfold get?
  split at h
  · next hentry => rw [hentry]; rfl
  · cases h

theorem Kept.isPending (h : r.Kept r') (hp : r.isPending key = true) :
    r'.isPending key = true := by
  have hentry := h key (contains_of_isPending hp)
  unfold Registry.isPending at hp ⊢
  rw [hentry]
  exact hp

theorem isPending_insert_pending (r : Registry) (key : String) :
    (r.insert key .pending).isPending key = true := by
  unfold isPending insert
  rw [Table.get?_insert_self]

/-- A new key is no change to those that were there. -/
theorem kept_insert (hc : r.contains key = false) (entry : Entry) :
    r.Kept (r.insert key entry) := by
  intro key' hc'
  have hne : key ≠ key' := by
    rintro rfl
    rw [hc] at hc'
    cases hc'
  exact entry_insert_of_ne r entry hne

/-- What is done to a key that was new is no change to those that were there. -/
theorem Kept.insert (hc : r.contains key = false) (h : r.Kept r') (entry : Entry) :
    r.Kept (r'.insert key entry) := by
  intro key' hc'
  have hne : key ≠ key' := by
    rintro rfl
    rw [hc] at hc'
    cases hc'
  exact (entry_insert_of_ne r' entry hne).trans (h key' hc')

theorem grows_insert_ready (hp : r.isPending key = true) (t : Object) :
    r.Grows (r.insert key (.ready t)) := by
  refine ⟨fun key' hc => contains_insert_of_contains key _ hc, fun key' t' ht => ?_⟩
  have hne : key ≠ key' := by
    rintro rfl
    rw [get?_of_isPending hp] at ht
    cases ht
  rw [get?_insert_ready, if_neg hne]
  exact ht

end Registry

variable {N : Type} {g : Graph N}

namespace Builds

variable {r r' : Registry} {us : List (Use N)} {fs : List Object}

theorem kept (h : Builds g r us fs r') : r.Kept r' := fun _ hc => h.entry_eq hc

/-- The registry that a definition is built on is kept when the definition is ready. -/
theorem grows_ready {key : String} (h : Builds g (r.insert key .pending) us fs r') (t : Object) :
    r'.Grows (r'.insert key (.ready t)) :=
  Registry.grows_insert_ready (h.kept.isPending (Registry.isPending_insert_pending r key)) t

end Builds

end TypeSchema
