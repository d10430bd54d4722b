/-
  Tables: one value per text key, the keys in increasing order of their characters.

  A table is the value behind a JSON object and behind the registry of named definitions.
  `insert` writes over the value of a key that is there and otherwise puts the new entry where
  its key belongs, so the order of the writes never shows (`ordered_insert`). What a table holds
  is read through `get?`; `get?_insert` says what a write does to it.
-/

namespace TypeSchema

structure Table (α : Type) where
  entries : List (String × α)
deriving DecidableEq, Inhabited

namespace Table

variable {α : Type}

def empty : Table α := ⟨[]⟩

def isEmpty (t : Table α) : Bool := t.entries.isEmpty

def size (t : Table α) : Nat := t.entries.length

def keys (t : Table α) : List String := t.entries.map Prod.fst

/-- The value of the first entry under `k`. -/
def find (k : String) : List (String × α) → Option α
  | [] => none
  | e :: es => if e.1 = k then some e.2 else find k es

def get? (t : Table α) (k : String) : Option α := find k t.entries

def contains (t : Table α) (k : String) : Bool := (t.get? k).isSome

/-- Writes over the entry of `k`, or puts one in front of the first greater key. -/
def place (k : String) (v : α) : List (String × α) → List (String × α)
  | [] => [(k, v)]
  | e :: es =>
    if e.1 = k then (k, v) :: es
    else if k < e.1 then (k, v) :: e :: es
    else e :: place k v es

def insert (t : Table α) (k : String) (v : α) : Table α := ⟨place k v t.entries⟩

/-- Writes every entry of `u` into `t`. -/
def merge (t u : Table α) : Table α := u.entries.foldl (fun t e => t.insert e.1 e.2) t

def ofList (es : List (String × α)) : Table α := empty.merge ⟨es⟩

/-- Keeps the entries that `f` maps to a value, under their keys. -/
def filterMap {β : Type} (f : α → Option β) (t : Table α) : Table β :=
  ⟨t.entries.filterMap fun e => (f e.2).map (e.1, ·)⟩

/-- Every key is below the keys after it. -/
def Ordered (t : Table α) : Prop := t.entries.Pairwise fun e e' => e.1 < e'.1

/-! ## Look-up -/

theorem find_place (k k' : String) (v : α) (es : List (String × α)) :
    find k' (place k v es) = if k = k' then some v else find k' es := by
  induction es with
  | nil => simp only [place, find]
  | cons e es ih =>
    simp only [place]
    split
    · next he => simp only [find, he]; split <;> rfl
    · next he =>
      split
      · simp only [find]
      · simp only [find, ih]
        split
        · next h => rw [if_neg fun hk => he (h.trans hk.symm)]
        · rfl

@[simp] theorem get?_empty (k : String) : (empty : Table α).get? k = none := rfl

theorem get?_insert (t : Table α) (k k' : String) (v : α) :
    (t.insert k v).get? k' = if k = k' then some v else t.get? k' :=
  find_place k k' v t.entries

@[simp] theorem get?_insert_self (t : Table α) (k : String) (v : α) :
    (t.insert k v).get? k = some v := by simp [get?_insert]

theorem get?_insert_of_ne (t : Table α) {k k' : String} (v : α) (h : k ≠ k') :
    (t.insert k v).get? k' = t.get? k' := by simp [get?_insert, h]

/-! ## Order -/

theorem ordered_empty : (empty : Table α).Ordered := List.Pairwise.nil

theorem fst_mem_place {k : String} {v : α} {es : List (String × α)} {e : String × α}
    (h : e ∈ place k v es) : e.1 = k ∨ e ∈ es := by
  induction es with
  | nil => simp only [place, List.mem_singleton] at h; exact Or.inl (by rw [h])
  | cons a es ih =>
    simp only [place] at h
    split at h
    · rcases List.mem_cons.mp h with h | h
      · exact Or.inl (by rw [h])
      · exact Or.inr (List.mem_cons_of_mem _ h)
    · split at h
      · rcases List.mem_cons.mp h with h | h
        · exact Or.inl (by rw [h])
        · exact Or.inr h
      · rcases List.mem_cons.mp h with h | h
        · exact Or.inr (by rw [h]; exact List.mem_cons_self)
        · exact (ih h).imp id (List.mem_cons_of_mem _)

theorem ordered_insert {t : Table α} (h : t.Ordered) (k : String) (v : α) :
    (t.insert k v).Ordered := by
  obtain ⟨es⟩ := t
  simp only [Ordered, insert] at h ⊢
  induction es with
  | nil => exact List.pairwise_singleton _ _
  | cons e es ih =>
    have hd := List.pairwise_cons.mp h
    simp only [place]
    split
    · next he => exact List.pairwise_cons.mpr ⟨fun x hx => he ▸ hd.1 x hx, hd.2⟩
    · next he =>
      split
      · next hlt =>
        refine List.pairwise_cons.mpr ⟨fun x hx => ?_, h⟩
        rcases List.mem_cons.mp hx with hx | hx
        · rw [hx]; exact hlt
        · exact String.lt_trans hlt (hd.1 x hx)
      · next hlt =>
        refine List.pairwise_cons.mpr ⟨fun x hx => ?_, ih hd.2⟩
        rcases fst_mem_place hx with hx | hx
        · rw [hx]
          rcases Std.lt_trichotomy e.1 k with h | h | h
          · exact h
          · exact absurd h he
          · exact absurd h hlt
        · exact hd.1 x hx

end Table

end TypeSchema
