/-
  The keywords that annotations write, as one function on fragments.

  `Annotations.value?` says what a list of annotations writes under a keyword, and
  `Annotations.write` writes a list of keywords over a fragment. The writers run exactly these
  (`writes_documentation`, `writes_constraints`): they fail where a bound is not finite
  (`Annotations.check`), and otherwise the fragment they leave is the one that `write` gives. What
  they write commutes with every other keyword (`write_insert`).
-/
import TypeSchema.Encoding
import TypeSchema.Proofs.Table

namespace TypeSchema

/-- A keyword whose value comes from an annotation. -/
inductive SiteKeyword where
  | text (t : TextTag)
  | length (t : LengthTag)
  | bound (t : Bound)
deriving DecidableEq

namespace SiteKeyword

def name : SiteKeyword → String
  | text t => t.keyword
  | length t => t.keyword
  | bound t => t.keyword

def documentation : List SiteKeyword := [text .comment, text .title, text .description]

/-- The constraints of the values of one JSON type, in the order in which they are written. -/
def constraints (t : JsonType) : List SiteKeyword :=
  if t = .string then [text .format, text .pattern, length .minLength, length .maxLength]
  else if t.isNumeric then Bound.inOrder.map bound
  else []

theorem name_injective {k k' : SiteKeyword} (h : k.name = k'.name) : k = k' := by
  revert h
  cases k with
  | text t =>
    cases k' with
    | text t' => cases t <;> cases t' <;> decide
    | length t' => cases t <;> cases t' <;> decide
    | bound t' => cases t <;> cases t' <;> decide
  | length t =>
    cases k' with
    | text t' => cases t <;> cases t' <;> decide
    | length t' => cases t <;> cases t' <;> decide
    | bound t' => cases t <;> cases t' <;> decide
  | bound t =>
    cases k' with
    | text t' => cases t <;> cases t' <;> decide
    | length t' => cases t <;> cases t' <;> decide
    | bound t' => cases t <;> cases t' <;> decide

end SiteKeyword

open SiteKeyword (documentation constraints)

/-- The keywords that constrain the values of a kind. -/
def Kind.constraints : Kind → List SiteKeyword
  | .primitive p => SiteKeyword.constraints p.jsonType
  | _ => []

/-- The keywords that a use writes beside a pointer to a type of the kind. -/
def Kind.siteKeywords (k : Kind) : List SiteKeyword := documentation ++ k.constraints

/-- The keywords that the encoding of the kind takes from annotations. A marker takes none. -/
def Kind.ownKeywords : Kind → List SiteKeyword
  | .marker => []
  | k => k.siteKeywords

namespace Annotations

/-- The value under the keyword: for a bound the integer one, if there is any. -/
def value? (as : Annotations) : SiteKeyword → Option Json
  | .text t => (as.text? t).map .string
  | .length t => (as.length? t).map fun n => .int n.toNat
  | .bound t =>
    ((as.bound? t).map fun i => .int i.toInt).or
      ((as.boundDouble? t).map fun x => .number (.double x))

def put (as : Annotations) (s : Object) (k : SiteKeyword) : Object :=
  match as.value? k with
  | some v => s.insert k.name v
  | none => s

/-- Writes those of the keywords that have a value. -/
def write (as : Annotations) (ks : List SiteKeyword) (s : Object) : Object :=
  ks.foldl as.put s

/-- Fails at the first bound that would be written without being finite. -/
def check (as : Annotations) : List SiteKeyword → Except SchemaError Unit
  | [] => .ok ()
  | .bound t :: ks =>
    match as.bound? t, as.boundDouble? t with
    | none, some x =>
      if x.isFinite then as.check ks else .error (.nonFiniteBound t.keyword x)
    | _, _ => as.check ks
  | _ :: ks => as.check ks

/-! ## Written fragments -/

theorem get?_put_self (as : Annotations) (s : Object) (k : SiteKeyword) :
    (as.put s k).get? k.name = (as.value? k).or (s.get? k.name) := by
  unfold put
  cases as.value? k with
  | none => rfl
  | some v => rw [Table.get?_insert_self]; rfl

theorem get?_put_of_ne (as : Annotations) (s : Object) {k : SiteKeyword} {n : String}
    (h : k.name ≠ n) : (as.put s k).get? n = s.get? n := by
  unfold put
  cases as.value? k with
  | none => rfl
  | some v => exact Table.get?_insert_of_ne _ _ h

theorem ordered_put (as : Annotations) {s : Object} (h : s.Ordered) (k : SiteKeyword) :
    (as.put s k).Ordered := by
  unfold put
  cases as.value? k with
  | none => exact h
  | some v => exact Table.ordered_insert h _ _

theorem ordered_write (as : Annotations) (ks : List SiteKeyword) {s : Object} (h : s.Ordered) :
    (as.write ks s).Ordered := by
  induction ks generalizing s with
  | nil => exact h
  | cons k ks ih => exact ih (as.ordered_put h k)

theorem write_append (as : Annotations) (ks ks' : List SiteKeyword) (s : Object) :
    as.write (ks ++ ks') s = as.write ks' (as.write ks s) := List.foldl_append

theorem get?_write_of_not_mem (as : Annotations) {ks : List SiteKeyword} (s : Object)
    {n : String} (h : ∀ k ∈ ks, k.name ≠ n) : (as.write ks s).get? n = s.get? n := by
  induction ks generalizing s with
  | nil => rfl
  | cons k ks ih =>
    obtain ⟨hk, hks⟩ := List.forall_mem_cons.mp h
    exact (ih _ hks).trans (as.get?_put_of_ne s hk)

theorem get?_write_of_mem (as : Annotations) {ks : List SiteKeyword} (s : Object)
    {k : SiteKeyword} (h : k ∈ ks) :
    (as.write ks s).get? k.name = (as.value? k).or (s.get? k.name) := by
  induction ks generalizing s with
  | nil => exact absurd h List.not_mem_nil
  | cons a ks ih =>
    change (as.write ks (as.put s a)).get? k.name = _
    by_cases hks : k ∈ ks
    · rw [ih _ hks]
      by_cases ha : a = k
      · rw [ha, get?_put_self]
        cases as.value? k <;> rfl
      · rw [as.get?_put_of_ne s fun hn => ha (SiteKeyword.name_injective hn)]
    · have ha : k = a := (List.mem_cons.mp h).resolve_right hks
      rw [get?_write_of_not_mem, ha, get?_put_self]
      intro k' hk' hn
      exact hks (SiteKeyword.name_injective hn ▸ hk')

/-- What annotations write goes before what was there. -/
theorem get?_write (as : Annotations) (ks : List SiteKeyword) (s : Object) (n : String) :
    (as.write ks s).get? n = ((as.write ks .empty).get? n).or (s.get? n) := by
  by_cases hn : ∃ k ∈ ks, k.name = n
  · obtain ⟨k, hk, rfl⟩ := hn
    rw [get?_write_of_mem as s hk, get?_write_of_mem as _ hk, Table.get?_empty, Option.or_none]
  · have hne : ∀ k ∈ ks, k.name ≠ n := fun k hk hname => hn ⟨k, hk, hname⟩
    rw [get?_write_of_not_mem as s hne, get?_write_of_not_mem as _ hne, Table.get?_empty,
      Option.none_or]

/-- Annotations leave every other keyword alone, whichever is written first. -/
theorem write_insert (as : Annotations) {ks : List SiteKeyword} {s : Object} (hs : s.Ordered)
    {n : String} (h : ∀ k ∈ ks, k.name ≠ n) (v : Json) :
    as.write ks (s.insert n v) = (as.write ks s).insert n v := by
  induction ks generalizing s with
  | nil => rfl
  | cons k ks ih =>
    obtain ⟨hk, hks⟩ := List.forall_mem_cons.mp h
    have hput : as.put (s.insert n v) k = (as.put s k).insert n v := by
      unfold put
      cases as.value? k with
      | none => rfl
      | some w => exact Table.insert_comm hs hk.symm v w
    change as.write ks (as.put (s.insert n v) k) = _
    rw [hput, ih (as.ordered_put hs k) hks]
    rfl

/-- Keywords without a value are not written. -/
theorem write_eq_self (as : Annotations) {ks : List SiteKeyword} (s : Object)
    (h : ∀ k ∈ ks, as.value? k = none) : as.write ks s = s := by
  induction ks with
  | nil => rfl
  | cons k ks ih =>
    obtain ⟨hk, hks⟩ := List.forall_mem_cons.mp h
    have hput : as.put s k = s := by unfold put; rw [hk]
    change as.write ks (as.put s k) = s
    rw [hput, ih hks]

theorem check_of_no_bound {as : Annotations} {ks : List SiteKeyword}
    (h : ∀ t, .bound t ∉ ks) : as.check ks = .ok () := by
  induction ks with
  | nil => rfl
  | cons k ks ih =>
    have hks := ih fun t ht => h t (List.mem_cons_of_mem _ ht)
    cases k with
    | text t => exact hks
    | length t => exact hks
    | bound t => exact absurd List.mem_cons_self (h t)

end Annotations

/-! ## Running the writers -/

variable {α β : Type}

/-- `w` turns the fragment at hand into the one that `f` gives, and fails where `f` fails. It
does not touch the registry. -/
def Writes (w : Write α) (f : Object → Except SchemaError Object) : Prop :=
  ∀ draft : Draft,
    match f draft.fragment with
    | .ok s => ∃ a, w draft = .ok a { draft with fragment := s }
    | .error e => ∃ s, w draft = .error (.schema e) { draft with fragment := s }

theorem Writes.of_ok {w : Write α} {f : Object → Object}
    (h : ∀ draft, ∃ a, w draft = .ok a { draft with fragment := f draft.fragment }) :
    Writes w fun s => .ok (f s) := h

theorem Writes.seq {w : Write α} {w' : Write β} {f f' : Object → Except SchemaError Object}
    (h : Writes w f) (h' : Writes w' f') : Writes (w >>= fun _ => w') fun s => f s >>= f' := by
  intro draft
  have hd := h draft
  cases hf : f draft.fragment with
  | ok s =>
    rw [hf] at hd
    obtain ⟨a, ha⟩ := hd
    have hb : (f draft.fragment >>= f') = f' s := by rw [hf]; rfl
    have hd' := h' { draft with fragment := s }
    simp only [bind_run, ha, hb]
    exact hd'
  | error e =>
    rw [hf] at hd
    obtain ⟨s, hs⟩ := hd
    have hb : (f draft.fragment >>= f') = .error e := by rw [hf]; rfl
    simp only [bind_run, hs, hb]
    exact ⟨s, rfl⟩

theorem Writes.congr {w : Write α} {f f' : Object → Except SchemaError Object} (h : Writes w f)
    (hf : ∀ s, f s = f' s) : Writes w f' := funext hf ▸ h

theorem writes_pure (a : α) : Writes (pure a : Write α) fun s => .ok s :=
  Writes.of_ok fun _ => ⟨a, rfl⟩

theorem writes_put (n : String) (v : Json) :
    Writes (TypeSchema.put n v) fun s => .ok (s.insert n v) :=
  Writes.of_ok fun _ => ⟨(), rfl⟩

theorem writes_putIfPresent (as : Annotations) {k : SiteKeyword} {v : Option Json}
    (h : as.value? k = v) : Writes (putIfPresent k.name v) fun s => .ok (as.put s k) := by
  refine Writes.of_ok fun draft => ?_
  cases v with
  | none => exact ⟨false, by unfold Annotations.put; rw [h]; rfl⟩
  | some v => exact ⟨true, by unfold Annotations.put; rw [h]; rfl⟩

theorem writes_text (as : Annotations) (t : TextTag) :
    Writes (as.writeText t) fun s => .ok (as.put s (.text t)) :=
  writes_putIfPresent as (k := .text t) rfl

theorem writes_length (as : Annotations) (t : LengthTag) :
    Writes (as.writeLength t) fun s => .ok (as.put s (.length t)) :=
  writes_putIfPresent as (k := .length t) rfl

theorem writes_documentation (as : Annotations) :
    Writes as.writeDocumentation fun s => .ok (as.write documentation s) :=
  (((writes_text as .comment).seq ((writes_text as .title).seq
    ((writes_text as .description).seq (writes_pure ()))))).congr fun _ => rfl

theorem writes_stringConstraints (as : Annotations) :
    Writes as.writeStringConstraints fun s => .ok (as.write (constraints .string) s) :=
  ((writes_text as .format).seq ((writes_text as .pattern).seq
    ((writes_length as .minLength).seq ((writes_length as .maxLength).seq
      (writes_pure ()))))).congr fun _ => rfl

/-- An integer bound is written in any case, a double one if it is finite. -/
theorem writes_numberConstraint (as : Annotations) (t : Bound) :
    Writes (as.writeNumberConstraint t) fun s => do
      as.check [.bound t]
      return as.put s (.bound t) := by
  intro draft
  cases hi : as.bound? t with
  | some i =>
    have hv : as.value? (.bound t) = some (.int i.toInt) := by simp [Annotations.value?, hi]
    simp only [Annotations.check, hi]
    refine ⟨(), ?_⟩
    simp only [Annotations.writeNumberConstraint, Annotations.writeBound, hi, Option.map_some,
      putIfPresent, bind_run, put_run, pure_run, Annotations.put, hv]
    rfl
  | none =>
    cases hx : as.boundDouble? t with
    | none =>
      have hv : as.value? (.bound t) = none := by simp [Annotations.value?, hi, hx]
      simp only [Annotations.check, hi, hx]
      refine ⟨(), ?_⟩
      simp only [Annotations.writeNumberConstraint, Annotations.writeBound, hi, Option.map_none,
        putIfPresent, bind_run, pure_run, Annotations.put, hv, Annotations.writeBoundDouble, hx]
      rfl
    | some x =>
      have hv : as.value? (.bound t) = some (.number (.double x)) := by
        simp [Annotations.value?, hi, hx]
      by_cases hfin : x.isFinite = true
      · simp only [Annotations.check, hi, hx, hfin, if_true]
        refine ⟨(), ?_⟩
        simp only [Annotations.writeNumberConstraint, Annotations.writeBound, hi,
          Option.map_none, putIfPresent, bind_run, pure_run, Annotations.put, hv,
          Annotations.writeBoundDouble, hx, hfin, if_true]
        rfl
      · simp only [Annotations.check, hi, hx, if_neg hfin]
        refine ⟨draft.fragment, ?_⟩
        simp only [Annotations.writeNumberConstraint, Annotations.writeBound, hi,
          Option.map_none, putIfPresent, bind_run, pure_run, Annotations.writeBoundDouble, hx,
          if_neg hfin]
        rfl

theorem check_cons_bound (as : Annotations) (t : Bound) (ks : List SiteKeyword) :
    as.check (.bound t :: ks) = as.check [.bound t] >>= fun _ => as.check ks := by
  simp only [Annotations.check]
  split
  · split <;> rfl
  · rfl

theorem writes_numberConstraints (as : Annotations) (ts : List Bound) :
    Writes (ts.forM as.writeNumberConstraint) fun s => do
      as.check (ts.map .bound)
      return as.write (ts.map .bound) s := by
  induction ts with
  | nil => exact writes_pure ()
  | cons t ts ih =>
    refine ((writes_numberConstraint as t).seq ih).congr fun s => ?_
    rw [List.map_cons, check_cons_bound as t (ts.map .bound)]
    cases as.check [.bound t] with
    | error e => rfl
    | ok _ => rfl

/-- The constraints of a JSON type are written as its list of keywords says. -/
theorem writes_constraints (as : Annotations) (t : JsonType) :
    Writes (as.writeConstraints t) fun s => do
      as.check (constraints t)
      return as.write (constraints t) s := by
  unfold Annotations.writeConstraints constraints
  split
  · refine (writes_stringConstraints as).congr fun s => ?_
    rw [Annotations.check_of_no_bound (by simp)]
    rfl
  · split
    · exact writes_numberConstraints as Bound.inOrder
    · exact writes_pure ()

end TypeSchema
