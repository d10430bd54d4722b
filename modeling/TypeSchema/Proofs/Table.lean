/-
  Tables as finite maps.

  An ordered table is determined by its look-ups (`ext_of_ordered`), so two sequences of writes
  that leave the same values give the same table, in whatever order they were made. The rest says
  what `merge`, `ofList`, `filterMap` and `erase` do to a look-up, and that `mapEntries` may be
  applied before or after the writes.
-/
import Mathlib.Data.List.Nodup
import TypeSchema.Table

namespace TypeSchema.Table

variable {α β : Type}

/-- Drops the entries under `k`. -/
def erase (t : Table α) (k : String) : Table α := ⟨t.entries.filter fun e => e.1 ≠ k⟩

/-- Replaces every value, by a rule that may depend on its key. -/
def mapEntries (f : String → α → β) (t : Table α) : Table β :=
  ⟨t.entries.map fun e => (e.1, f e.1 e.2)⟩

/-! ## Equal look-ups -/

theorem mem_of_find {k : String} {v : α} {es : List (String × α)} (h : find k es = some v) :
    (k, v) ∈ es := by
  induction es with
  | nil => simp [find] at h
  | cons e es ih =>
    rw [find] at h
    split at h
    · next he =>
      obtain rfl := Option.some.inj h
      rw [← he]; exact List.mem_cons_self
    · exact List.mem_cons_of_mem _ (ih h)

theorem find_eq_none {k : String} {es : List (String × α)} :
    find k es = none ↔ ∀ e ∈ es, e.1 ≠ k := by
  induction es with
  | nil => simp [find]
  | cons e es ih =>
    rw [find, List.forall_mem_cons]
    split
    · next he => simp [he]
    · next he => rw [ih]; exact ⟨fun h => ⟨he, h⟩, fun h => h.2⟩

theorem get?_eq_none_iff {t : Table α} {k : String} : t.get? k = none ↔ k ∉ t.keys := by
  rw [get?, find_eq_none, keys, List.mem_map]
  constructor
  · rintro h ⟨e, he, hk⟩
    exact h e he hk
  · exact fun h e he hk => h ⟨e, he, hk⟩

/-- A value that is the only one under its key is found. -/
theorem find_of_unique {k : String} {v : α} {es : List (String × α)} (h : (k, v) ∈ es)
    (huniq : ∀ w, (k, w) ∈ es → w = v) : find k es = some v := by
  cases hf : find k es with
  | none => exact absurd rfl (find_eq_none.mp hf _ h)
  | some w => rw [huniq w (mem_of_find hf)]

theorem snd_eq_of_nodup {es : List (String × α)} (h : (es.map Prod.fst).Nodup) {k : String}
    {v w : α} (hv : (k, v) ∈ es) (hw : (k, w) ∈ es) : w = v := by
  have := List.inj_on_of_nodup_map h hv hw rfl
  exact (congrArg Prod.snd this).symm

theorem find_of_nodup {es : List (String × α)} (h : (es.map Prod.fst).Nodup) {k : String} {v : α}
    (hv : (k, v) ∈ es) : find k es = some v :=
  find_of_unique hv fun _ hw => snd_eq_of_nodup h hv hw

theorem Ordered.nodup {t : Table α} (h : t.Ordered) : (t.entries.map Prod.fst).Nodup := by
  refine List.pairwise_map.mpr (h.imp ?_)
  intro a b hlt he
  exact String.lt_irrefl _ (he ▸ hlt)

/-- An ordered table holds exactly the entries that a look-up finds. -/
theorem Ordered.mem_entries_iff {t : Table α} (h : t.Ordered) (e : String × α) :
    e ∈ t.entries ↔ t.get? e.1 = some e.2 :=
  ⟨find_of_nodup h.nodup, mem_of_find⟩

theorem ext_of_ordered {t u : Table α} (ht : t.Ordered) (hu : u.Ordered)
    (h : ∀ k, t.get? k = u.get? k) : t = u := by
  have hperm : t.entries.Perm u.entries := by
    refine (List.perm_ext_iff_of_nodup ht.nodup.of_map hu.nodup.of_map).mpr fun e => ?_
    rw [ht.mem_entries_iff, hu.mem_entries_iff, h]
  have heq : t.entries = u.entries := hperm.eq_of_pairwise
    (fun a b _ _ hab hba => absurd (String.lt_trans hab hba) (String.lt_irrefl _)) ht hu
  exact congrArg Table.mk heq

theorem insert_comm {t : Table α} (h : t.Ordered) {k k' : String} (hne : k ≠ k') (v v' : α) :
    (t.insert k v).insert k' v' = (t.insert k' v').insert k v := by
  refine ext_of_ordered (ordered_insert (ordered_insert h _ _) _ _)
    (ordered_insert (ordered_insert h _ _) _ _) fun x => ?_
  rw [get?_insert, get?_insert, get?_insert, get?_insert]
  by_cases hx : k' = x
  · rw [if_pos hx, if_neg (fun h => hne (h.trans hx.symm)), if_pos hx]
  · rw [if_neg hx, if_neg hx]

/-! ## Merging -/

theorem ordered_foldl_insert {t : Table α} (h : t.Ordered) (es : List (String × α)) :
    (es.foldl (fun t e => t.insert e.1 e.2) t).Ordered := by
  induction es generalizing t with
  | nil => exact h
  | cons e es ih => exact ih (ordered_insert h _ _)

theorem ordered_merge {t : Table α} (h : t.Ordered) (u : Table α) : (t.merge u).Ordered :=
  ordered_foldl_insert h u.entries

theorem ordered_ofList (es : List (String × α)) : (ofList es).Ordered :=
  ordered_foldl_insert ordered_empty es

/-- Of several writes under one key the last one counts. -/
theorem get?_foldl_insert (t : Table α) (es : List (String × α)) (k : String) :
    (es.foldl (fun t e => t.insert e.1 e.2) t).get? k = (find k es.reverse).or (t.get? k) := by
  have hsnoc : ∀ (xs : List (String × α)) (e : String × α),
      find k (xs ++ [e]) = (find k xs).or (if e.1 = k then some e.2 else none) := by
    intro xs e
    induction xs with
    | nil => rfl
    | cons x xs ih =>
      rw [List.cons_append, find, find, ih]
      split <;> rfl
  induction es generalizing t with
  | nil => rfl
  | cons e es ih =>
    rw [List.foldl_cons, ih, List.reverse_cons, hsnoc, get?_insert, Option.or_assoc]
    congr 1
    split <;> rfl

theorem find_reverse {es : List (String × α)} (h : (es.map Prod.fst).Nodup) (k : String) :
    find k es.reverse = find k es := by
  cases hf : find k es with
  | some v =>
    refine find_of_unique (List.mem_reverse.mpr (mem_of_find hf)) fun w hw => ?_
    exact snd_eq_of_nodup h (mem_of_find hf) (List.mem_reverse.mp hw)
  | none =>
    refine find_eq_none.mpr fun e he => ?_
    exact find_eq_none.mp hf e (List.mem_reverse.mp he)

theorem get?_merge (t : Table α) {u : Table α} (hu : u.Ordered) (k : String) :
    (t.merge u).get? k = (u.get? k).or (t.get? k) := by
  rw [merge, get?_foldl_insert, find_reverse hu.nodup]
  rfl

theorem get?_ofList {es : List (String × α)} (h : (es.map Prod.fst).Nodup) (k : String) :
    (ofList es).get? k = find k es := by
  rw [ofList, merge, get?_foldl_insert, find_reverse h, get?_empty, Option.or_none]

theorem get?_ofList_singleton (k k' : String) (v : α) :
    (ofList [(k, v)]).get? k' = if k = k' then some v else none :=
  get?_insert empty k k' v

/-- An entry with no other one of its key behind it is found. -/
theorem get?_ofList_append (before : List (String × α)) {after : List (String × α)} {k : String}
    {v : α} (h : ∀ e ∈ after, e.1 ≠ k) : (ofList (before ++ (k, v) :: after)).get? k = some v := by
  have hafter : find k after.reverse = none :=
    find_eq_none.mpr fun e he => h e (List.mem_reverse.mp he)
  rw [ofList, merge, List.foldl_append, List.foldl_cons, get?_foldl_insert, hafter,
    get?_insert_self, Option.none_or]

/-- A table made of entries holds no other keys and values than theirs. -/
theorem mem_of_get?_ofList {es : List (String × α)} {k : String} {v : α}
    (h : (ofList es).get? k = some v) : (k, v) ∈ es := by
  rw [ofList, merge, get?_foldl_insert, get?_empty, Option.or_none] at h
  exact List.mem_reverse.mp (mem_of_find h)

theorem merge_empty (t : Table α) : t.merge empty = t := rfl

/-! ## Erasing and mapping -/

theorem ordered_erase {t : Table α} (h : t.Ordered) (k : String) : (t.erase k).Ordered :=
  h.filter _

theorem get?_erase (t : Table α) (k k' : String) :
    (t.erase k).get? k' = if k = k' then none else t.get? k' := by
  obtain ⟨es⟩ := t
  simp only [get?, erase]
  induction es with
  | nil => split <;> rfl
  | cons e es ih =>
    rw [List.filter_cons]
    split
    · next he =>
      rw [find, find, ih]
      have hne : e.1 ≠ k := of_decide_eq_true he
      by_cases hk : k = k'
      · rw [if_pos hk, if_pos hk, if_neg (fun h => hne (h.trans hk.symm))]
      · rw [if_neg hk, if_neg hk]
    · next he =>
      have heq : e.1 = k := by simpa using he
      rw [ih, find]
      by_cases hk : k = k'
      · rw [if_pos hk, if_pos hk]
      · rw [if_neg hk, if_neg hk, if_neg (fun h => hk (heq.symm.trans h))]

theorem get?_filterMap {t : Table α} (h : t.Ordered) (f : α → Option β) (k : String) :
    (t.filterMap f).get? k = (t.get? k).bind f := by
  obtain ⟨es⟩ := t
  simp only [get?, filterMap]
  have hnodup := h.nodup
  clear h
  induction es with
  | nil => rfl
  | cons e es ih =>
    obtain ⟨hnot, hes⟩ := List.nodup_cons.mp hnodup
    have ih := ih hes
    rw [List.filterMap_cons, find]
    split
    · next hnone =>
      have hf : f e.2 = none := by simpa using hnone
      split
      · next he =>
        rw [ih, Option.bind_some, hf]
        have hfind : find k es = none := find_eq_none.mpr fun e' he' hc =>
          hnot (he.trans hc.symm ▸ List.mem_map_of_mem he')
        rw [hfind, Option.bind_none]
      · exact ih
    · next b hsome =>
      obtain ⟨v, hv, rfl⟩ := Option.map_eq_some_iff.mp hsome
      rw [find]
      split
      · exact hv.symm
      · exact ih

theorem ordered_filterMap {t : Table α} (h : t.Ordered) (f : α → Option β) :
    (t.filterMap f).Ordered := by
  refine List.pairwise_filterMap.mpr (h.imp ?_)
  intro a b hlt x hx y hy
  obtain ⟨_, _, rfl⟩ := Option.map_eq_some_iff.mp hx
  obtain ⟨_, _, rfl⟩ := Option.map_eq_some_iff.mp hy
  exact hlt

theorem mapEntries_insert (f : String → α → β) (t : Table α) (k : String) (v : α) :
    (t.insert k v).mapEntries f = (t.mapEntries f).insert k (f k v) := by
  obtain ⟨es⟩ := t
  simp only [mapEntries, insert, Table.mk.injEq]
  induction es with
  | nil => rfl
  | cons e es ih =>
    rw [place, List.map_cons, place]
    split
    · rfl
    · split
      · rfl
      · rw [List.map_cons, ih]

theorem mapEntries_ofList (f : String → α → β) (es : List (String × α)) :
    (ofList es).mapEntries f = ofList (es.map fun e => (e.1, f e.1 e.2)) := by
  have h : ∀ t : Table α, (es.foldl (fun t e => t.insert e.1 e.2) t).mapEntries f =
      (es.map fun e => (e.1, f e.1 e.2)).foldl (fun t e => t.insert e.1 e.2)
        (t.mapEntries f) := by
    induction es with
    | nil => intro t; rfl
    | cons e es ih =>
      intro t
      rw [List.foldl_cons, ih, mapEntries_insert, List.map_cons, List.foldl_cons]
  exact h empty

end TypeSchema.Table
