/-
  The fragment of a primitive, entry by entry.

  Of each tag the first annotation counts: `Annotations.FirstOfTag` says which one that is, and the
  look-ups find it and no other. A primitive fails at the first bound that is given as a double
  alone, and as one that is no number (`Annotations.Refused`). Otherwise `PrimitiveEntry` lists
  what stands in its fragment, in which nothing else is (`primitive_entries`).
-/
import TypeSchema.Proofs.Parts
import TypeSchema.Proofs.Vocabulary
import TypeSchema.Storage.Annotation

namespace TypeSchema

variable {N : Type}

namespace Annotations

/-- The annotation is there, and none before it has its tag. -/
def FirstOfTag (as : Annotations) (a : Annotation) : Prop :=
  ∃ before after, as = before ++ a :: after ∧ ∀ b ∈ before, b.tag ≠ a.tag

/-- The bound is not given as an integer, and what counts of its doubles is `x`, which is no
number that JSON can write. -/
structure NonFinite (as : Annotations) (t : Bound) (x : Double) : Prop where
  noInteger : ∀ i, .bound t i ∉ as
  first : as.FirstOfTag (.boundDouble t x)
  notFinite : x.isFinite = false

/-- Of the bounds that cannot be written this one comes first. -/
def Refused (as : Annotations) (t : Bound) (x : Double) : Prop :=
  as.NonFinite t x ∧ ∃ before after,
    [.minimum, .maximum, .exclusiveMinimum, .exclusiveMaximum, .multipleOf] =
      before ++ t :: after ∧ ∀ t' ∈ before, ∀ y, ¬ as.NonFinite t' y

end Annotations

/-- What stands in the fragment of a primitive: its JSON type, the documentation, and the
constraints that bear on the type, each as the first annotation of its tag has it. A double bound
stands there only if the bound is not given as an integer at all. -/
inductive PrimitiveEntry (p : Primitive) (nullable : Bool) (as : Annotations) :
    String → Json → Prop
  | type {name : String} : p.WrittenAs name → nullable = false →
    PrimitiveEntry p nullable as "type" (.string name)
  | nullableType {name : String} : p.WrittenAs name → nullable = true →
    PrimitiveEntry p nullable as "type" (.array [.string name, .string "null"])
  | documentation {t : TextTag} {k s : String} : (t, k) ∈ documentationKeywords →
    as.FirstOfTag (.text t s) → PrimitiveEntry p nullable as k (.string s)
  | text {t : TextTag} {k s : String} : p.WrittenAs "string" → (t, k) ∈ textKeywords →
    as.FirstOfTag (.text t s) → PrimitiveEntry p nullable as k (.string s)
  | length {t : LengthTag} {k : String} {n : UInt64} : p.WrittenAs "string" →
    (t, k) ∈ lengthKeywords → as.FirstOfTag (.length t n) →
    PrimitiveEntry p nullable as k (.int n.toNat)
  | bound {t : Bound} {k : String} {i : Int64} : p.Numeric → (t, k) ∈ boundKeywords →
    as.FirstOfTag (.bound t i) → PrimitiveEntry p nullable as k (.int i.toInt)
  | boundDouble {t : Bound} {k : String} {x : Double} : p.Numeric → (t, k) ∈ boundKeywords →
    (∀ i, .bound t i ∉ as) → as.FirstOfTag (.boundDouble t x) →
    PrimitiveEntry p nullable as k (.number (.double x))

/-! ## Look-ups -/

namespace Annotations

variable {as : Annotations}

/-- A look-up by one tag finds the first annotation of that tag. -/
theorem findSome?_eq_some_iff {α : Type} {f : Annotation → Option α} (make : α → Annotation)
    (tag : Tag) (hsome : ∀ a x, f a = some x ↔ a = make x)
    (hnone : ∀ a, f a = none ↔ a.tag ≠ tag) (x : α) :
    as.findSome? f = some x ↔ as.FirstOfTag (make x) := by
  have htag : (make x).tag = tag := by
    by_contra hne
    have hx : f (make x) = some x := (hsome _ x).mpr rfl
    rw [(hnone _).mpr hne] at hx
    cases hx
  rw [List.findSome?_eq_some_iff]
  unfold FirstOfTag
  constructor
  · rintro ⟨before, a, after, rfl, ha, hbefore⟩
    obtain rfl := (hsome a x).mp ha
    exact ⟨before, after, rfl, fun b hb => htag ▸ (hnone b).mp (hbefore b hb)⟩
  · rintro ⟨before, after, rfl, hbefore⟩
    exact ⟨before, make x, after, rfl, (hsome _ x).mpr rfl,
      fun b hb => (hnone b).mpr (htag ▸ hbefore b hb)⟩

theorem text?_eq_some_iff {t : TextTag} {s : String} :
    as.text? t = some s ↔ as.FirstOfTag (.text t s) :=
  findSome?_eq_some_iff (.text t) (.text t)
    (fun a s => by unfold Annotation.text?; cases a <;> simp)
    (fun a => by unfold Annotation.tag Annotation.text?; cases a <;> simp) s

theorem length?_eq_some_iff {t : LengthTag} {n : UInt64} :
    as.length? t = some n ↔ as.FirstOfTag (.length t n) :=
  findSome?_eq_some_iff (.length t) (.length t)
    (fun a n => by unfold Annotation.length?; cases a <;> simp)
    (fun a => by unfold Annotation.tag Annotation.length?; cases a <;> simp) n

theorem bound?_eq_some_iff {t : Bound} {i : Int64} :
    as.bound? t = some i ↔ as.FirstOfTag (.bound t i) :=
  findSome?_eq_some_iff (.bound t) (.bound t)
    (fun a i => by unfold Annotation.bound?; cases a <;> simp)
    (fun a => by unfold Annotation.tag Annotation.bound?; cases a <;> simp) i

theorem boundDouble?_eq_some_iff {t : Bound} {x : Double} :
    as.boundDouble? t = some x ↔ as.FirstOfTag (.boundDouble t x) :=
  findSome?_eq_some_iff (.boundDouble t) (.boundDouble t)
    (fun a x => by unfold Annotation.boundDouble?; cases a <;> simp)
    (fun a => by unfold Annotation.tag Annotation.boundDouble?; cases a <;> simp) x

theorem bound?_eq_none_iff {t : Bound} : as.bound? t = none ↔ ∀ i, .bound t i ∉ as := by
  unfold bound?
  rw [List.findSome?_eq_none_iff]
  constructor
  · intro h i hi
    have hsome : (.bound t i : Annotation).bound? t = some i := if_pos rfl
    rw [h _ hi] at hsome
    cases hsome
  · intro h a ha
    cases a with
    | bound t' i =>
      refine if_neg ?_
      rintro rfl
      exact h i ha
    | _ => rfl

/-- The value that is written under a bound: the first integer, or else the first double. -/
theorem value?_bound_eq_some_iff {t : Bound} {v : Json} :
    as.value? (.bound t) = some v ↔ (∃ i, as.FirstOfTag (.bound t i) ∧ v = .int i.toInt) ∨
      (∀ i, .bound t i ∉ as) ∧ ∃ x, as.FirstOfTag (.boundDouble t x) ∧ v = .number (.double x) := by
  simp only [← bound?_eq_some_iff, ← boundDouble?_eq_some_iff, ← bound?_eq_none_iff, value?]
  cases as.bound? t with
  | some i => simp [eq_comm]
  | none =>
    cases as.boundDouble? t with
    | some x => simp [eq_comm]
    | none => simp

/-! ## Refused bounds -/

theorem nonFinite_iff {t : Bound} {x : Double} : as.NonFinite t x ↔
    as.bound? t = none ∧ as.boundDouble? t = some x ∧ x.isFinite = false := by
  rw [bound?_eq_none_iff, boundDouble?_eq_some_iff]
  exact ⟨fun h => ⟨h.noInteger, h.first, h.notFinite⟩, fun h => ⟨h.1, h.2.1, h.2.2⟩⟩

/-- One bound is refused if it cannot be written, and else it passes. -/
theorem check_bound_cases (as : Annotations) (t : Bound) :
    (∃ x, as.NonFinite t x ∧ as.check [.bound t] = .error (.nonFiniteBound t.keyword x)) ∨
      (∀ x, ¬ as.NonFinite t x) ∧ as.check [.bound t] = .ok () := by
  simp only [nonFinite_iff, check]
  cases as.bound? t with
  | some i => simp
  | none =>
    cases as.boundDouble? t with
    | none => simp
    | some x => cases hx : x.isFinite <;> simp [hx]

/-- The check stops at the first bound that cannot be written, and passes if there is none. -/
theorem check_bounds_cases (as : Annotations) (ts : List Bound) :
    (∃ before t after x, ts = before ++ t :: after ∧ (∀ t' ∈ before, ∀ y, ¬ as.NonFinite t' y) ∧
      as.NonFinite t x ∧ as.check (ts.map .bound) = .error (.nonFiniteBound t.keyword x)) ∨
      (∀ t ∈ ts, ∀ x, ¬ as.NonFinite t x) ∧ as.check (ts.map .bound) = .ok () := by
  induction ts with
  | nil => exact Or.inr ⟨fun _ ht => absurd ht List.not_mem_nil, rfl⟩
  | cons t ts ih =>
    rw [List.map_cons, check_cons_bound]
    rcases as.check_bound_cases t with ⟨x, hx, hcheck⟩ | ⟨hfinite, hcheck⟩
    · refine Or.inl ⟨[], t, ts, x, rfl, fun _ ht => absurd ht List.not_mem_nil, hx, ?_⟩
      rw [hcheck]
      rfl
    · rw [hcheck]
      rcases ih with ⟨before, t', after, x, rfl, hbefore, hx, hrest⟩ | ⟨hall, hrest⟩
      · exact Or.inl ⟨t :: before, t', after, x, rfl,
          List.forall_mem_cons.mpr ⟨hfinite, hbefore⟩, hx, hrest⟩
      · exact Or.inr ⟨List.forall_mem_cons.mpr ⟨hfinite, hall⟩, hrest⟩

end Annotations

/-! ## Runs -/

section

variable (c : Context N) {p : Primitive}

/-- What the fragment of a primitive is, where no bound is in the way. -/
def primitiveFragment (c : Context N) (p : Primitive) : Object :=
  c.annotations.write (Kind.primitive p).siteKeywords
    (Table.empty.insert "type" (p.jsonType.keywordValue c.descriptor.nullable))

theorem primitive_run (hk : c.descriptor.kind = .primitive p) :
    Encoding.primitive c = Build.ofExcept (do
      (c.annotations.check (SiteKeyword.constraints p.jsonType)).mapError .schema
      return primitiveFragment c p) := by
  rw [encode_primitive c hk]
  unfold Descriptor.finish Descriptor.shape primitiveFragment
  rw [hk]
  rfl

/-- A primitive is refused for its first bound that cannot be written, if it is a number, and has
its fragment otherwise. -/
theorem primitive_cases (hk : c.descriptor.kind = .primitive p) (r : Registry) :
    (p.jsonType.isNumeric = true ∧ ∃ t x, c.annotations.Refused t x ∧
      Encoding.primitive c r = .error (.schema (.nonFiniteBound t.keyword x)) r) ∨
    (p.jsonType.isNumeric = true → ∀ t x, ¬ c.annotations.NonFinite t x) ∧
      Encoding.primitive c r = .ok (primitiveFragment c p) r := by
  rw [primitive_run c hk]
  cases hnum : p.jsonType.isNumeric with
  | false =>
    have hcheck : c.annotations.check (SiteKeyword.constraints p.jsonType) = .ok () := by
      refine Annotations.check_of_no_bound fun t => ?_
      revert hnum
      cases p <;> simp [SiteKeyword.constraints, Primitive.jsonType, JsonType.isNumeric]
    refine Or.inr ⟨fun h => absurd h Bool.false_ne_true, ?_⟩
    rw [hcheck]
    rfl
  | true =>
    have hconstraints : SiteKeyword.constraints p.jsonType = Bound.inOrder.map .bound := by
      revert hnum
      cases p <;> decide
    rw [hconstraints]
    rcases c.annotations.check_bounds_cases Bound.inOrder with
      ⟨before, t, after, x, hts, hbefore, hx, hcheck⟩ | ⟨hall, hcheck⟩
    · refine Or.inl ⟨rfl, t, x, ⟨hx, before, after, hts, hbefore⟩, ?_⟩
      rw [hcheck]
      rfl
    · refine Or.inr ⟨fun _ t => hall t (by cases t <;> decide), ?_⟩
      rw [hcheck]
      rfl

end

/-! ## Entries -/

theorem ordered_primitiveFragment (c : Context N) (p : Primitive) :
    (primitiveFragment c p).Ordered :=
  c.annotations.ordered_write _ (Table.ordered_insert Table.ordered_empty _ _)

theorem get?_type_ne {k : SiteKeyword} (v : Json) :
    (Table.empty.insert "type" v : Object).get? k.name = none :=
  Table.get?_insert_of_ne _ _ (name_ne_of_mem_shape (by decide)).symm

/-- Under a keyword of its kind a primitive has what the annotations say. -/
theorem get?_primitiveFragment_name (c : Context N) {p : Primitive} {k : SiteKeyword}
    (hk : k ∈ (Kind.primitive p).siteKeywords) :
    (primitiveFragment c p).get? k.name = c.annotations.value? k := by
  unfold primitiveFragment
  rw [Annotations.get?_write_of_mem _ _ hk, get?_type_ne, Option.or_none]

theorem get?_primitiveFragment (c : Context N) (p : Primitive) {n : String} {v : Json} :
    (primitiveFragment c p).get? n = some v ↔
      (∃ k ∈ (Kind.primitive p).siteKeywords, k.name = n ∧ c.annotations.value? k = some v) ∨
      n = "type" ∧ v = p.jsonType.keywordValue c.descriptor.nullable := by
  by_cases hn : ∃ k ∈ (Kind.primitive p).siteKeywords, k.name = n
  · obtain ⟨k, hk, rfl⟩ := hn
    rw [get?_primitiveFragment_name c hk]
    constructor
    · exact fun hv => Or.inl ⟨k, hk, rfl, hv⟩
    · rintro (⟨k', _, hname, hv⟩ | ⟨htype, _⟩)
      · rw [← SiteKeyword.name_injective hname]
        exact hv
      · exact absurd htype (name_ne_of_mem_shape (by decide))
  · have hne : ∀ k ∈ (Kind.primitive p).siteKeywords, k.name ≠ n :=
      fun k hk hname => hn ⟨k, hk, hname⟩
    unfold primitiveFragment
    rw [Annotations.get?_write_of_not_mem _ _ hne, Table.get?_insert]
    constructor
    · intro hv
      obtain ⟨rfl, hv⟩ := Option.ite_none_right_eq_some.mp hv
      exact Or.inr ⟨rfl, (Option.some.inj hv).symm⟩
    · rintro (⟨k, hk, hname, _⟩ | ⟨rfl, rfl⟩)
      · exact absurd hname (hne k hk)
      · exact if_pos rfl

section

variable {p : Primitive}

theorem text_mem_siteKeywords {t : TextTag} : .text t ∈ (Kind.primitive p).siteKeywords ↔
    t ∈ [TextTag.title, .description, .comment] ∨
      p.WrittenAs "string" ∧ t ∈ [TextTag.format, .pattern] := by
  rw [Primitive.writtenAs_string_iff]
  change .text t ∈ SiteKeyword.documentation ++ SiteKeyword.constraints p.jsonType ↔ _
  generalize p.jsonType = j
  cases j <;> cases t <;> decide

theorem length_mem_siteKeywords {t : LengthTag} :
    .length t ∈ (Kind.primitive p).siteKeywords ↔ p.WrittenAs "string" := by
  rw [Primitive.writtenAs_string_iff]
  change .length t ∈ SiteKeyword.documentation ++ SiteKeyword.constraints p.jsonType ↔ _
  generalize p.jsonType = j
  cases j <;> cases t <;> decide

theorem bound_mem_siteKeywords {t : Bound} :
    .bound t ∈ (Kind.primitive p).siteKeywords ↔ p.Numeric := by
  rw [Primitive.numeric_iff]
  change .bound t ∈ SiteKeyword.documentation ++ SiteKeyword.constraints p.jsonType ↔ _
  generalize p.jsonType = j
  cases j <;> cases t <;> decide

end

theorem PrimitiveEntry.of_value? {p : Primitive} {nullable : Bool} {as : Annotations}
    {k : SiteKeyword} {v : Json} (hk : k ∈ (Kind.primitive p).siteKeywords)
    (hv : as.value? k = some v) : PrimitiveEntry p nullable as k.name v := by
  cases k with
  | text t =>
    obtain ⟨s, hs, rfl⟩ := Option.map_eq_some_iff.mp hv
    rcases text_mem_siteKeywords.mp hk with ht | ⟨hp, ht⟩
    · exact .documentation (mem_documentationKeywords.mpr ⟨ht, rfl⟩)
        (Annotations.text?_eq_some_iff.mp hs)
    · exact .text hp (mem_textKeywords.mpr ⟨ht, rfl⟩) (Annotations.text?_eq_some_iff.mp hs)
  | length t =>
    obtain ⟨n, hn, rfl⟩ := Option.map_eq_some_iff.mp hv
    exact .length (length_mem_siteKeywords.mp hk) (mem_lengthKeywords.mpr rfl)
      (Annotations.length?_eq_some_iff.mp hn)
  | bound t =>
    have hp := bound_mem_siteKeywords.mp hk
    rcases Annotations.value?_bound_eq_some_iff.mp hv with ⟨i, hi, rfl⟩ | ⟨hnone, x, hx, rfl⟩
    · exact .bound hp (mem_boundKeywords.mpr rfl) hi
    · exact .boundDouble hp (mem_boundKeywords.mpr rfl) hnone hx

/-- The entries of the fragment are those that the annotations call for. -/
theorem mem_entries_primitiveFragment (c : Context N) (p : Primitive) (n : String) (v : Json) :
    (n, v) ∈ (primitiveFragment c p).entries ↔
      PrimitiveEntry p c.descriptor.nullable c.annotations n v := by
  rw [(ordered_primitiveFragment c p).mem_entries_iff, get?_primitiveFragment]
  constructor
  · rintro (⟨k, hk, rfl, hv⟩ | ⟨rfl, rfl⟩)
    · exact .of_value? hk hv
    · unfold JsonType.keywordValue
      split
      · next hnull => exact .nullableType p.writtenAs_jsonType hnull
      · next hnull => exact .type p.writtenAs_jsonType (by simpa using hnull)
  · intro h
    cases h with
    | type hname hnull =>
      rw [Primitive.writtenAs_iff.mp hname, hnull]
      exact Or.inr ⟨rfl, rfl⟩
    | nullableType hname hnull =>
      rw [Primitive.writtenAs_iff.mp hname, hnull]
      exact Or.inr ⟨rfl, rfl⟩
    | @documentation t _ s hk hs =>
      obtain ⟨ht, rfl⟩ := mem_documentationKeywords.mp hk
      refine Or.inl ⟨.text t, text_mem_siteKeywords.mpr (Or.inl ht), rfl, ?_⟩
      exact Option.map_eq_some_iff.mpr ⟨s, Annotations.text?_eq_some_iff.mpr hs, rfl⟩
    | @text t _ s hp hk hs =>
      obtain ⟨ht, rfl⟩ := mem_textKeywords.mp hk
      refine Or.inl ⟨.text t, text_mem_siteKeywords.mpr (Or.inr ⟨hp, ht⟩), rfl, ?_⟩
      exact Option.map_eq_some_iff.mpr ⟨s, Annotations.text?_eq_some_iff.mpr hs, rfl⟩
    | @length t _ m hp hk hm =>
      obtain rfl := mem_lengthKeywords.mp hk
      refine Or.inl ⟨.length t, length_mem_siteKeywords.mpr hp, rfl, ?_⟩
      exact Option.map_eq_some_iff.mpr ⟨m, Annotations.length?_eq_some_iff.mpr hm, rfl⟩
    | @bound t _ i hp hk hi =>
      obtain rfl := mem_boundKeywords.mp hk
      refine Or.inl ⟨.bound t, bound_mem_siteKeywords.mpr hp, rfl, ?_⟩
      exact Annotations.value?_bound_eq_some_iff.mpr (Or.inl ⟨i, hi, rfl⟩)
    | @boundDouble t _ x hp hk hnone hx =>
      obtain rfl := mem_boundKeywords.mp hk
      refine Or.inl ⟨.bound t, bound_mem_siteKeywords.mpr hp, rfl, ?_⟩
      exact Annotations.value?_bound_eq_some_iff.mpr (Or.inr ⟨hnone, x, hx, rfl⟩)

/-- A primitive fails exactly if it is a number and has a bound that cannot be written, and then
with the first one. Otherwise its fragment has the entries that the first annotations of the tags
call for, each once, and no others. The registry is not touched. -/
theorem primitive_entries (c : Context N) {p : Primitive} (hk : c.descriptor.kind = .primitive p)
    (r : Registry) :
    ((∃ e r', Encoding.primitive c r = .error e r') ↔
      p.Numeric ∧ ∃ t x, c.annotations.NonFinite t x) ∧
    (∀ e r', Encoding.primitive c r = .error e r' → r' = r ∧
      ∃ t k x, c.annotations.Refused t x ∧ (t, k) ∈ boundKeywords ∧
        e = .schema (.nonFiniteBound k x)) ∧
    ∀ f r', Encoding.primitive c r = .ok f r' → r' = r ∧ f.Ordered ∧ ∀ n v,
      (n, v) ∈ f.entries ↔ PrimitiveEntry p c.descriptor.nullable c.annotations n v := by
  rw [Primitive.numeric_iff]
  rcases primitive_cases c hk r with ⟨hp, t, x, hrefused, hrun⟩ | ⟨hfinite, hrun⟩
  · rw [hrun]
    refine ⟨⟨fun _ => ⟨hp, t, x, hrefused.1⟩, fun _ => ⟨_, _, rfl⟩⟩, fun e r' h => ?_, nofun⟩
    cases h
    exact ⟨rfl, t, _, x, hrefused, mem_boundKeywords.mpr rfl, rfl⟩
  · rw [hrun]
    refine ⟨⟨nofun, ?_⟩, nofun, fun f r' h => ?_⟩
    · rintro ⟨hp, t, x, hx⟩
      exact absurd hx (hfinite hp t x)
    · cases h
      exact ⟨rfl, ordered_primitiveFragment c p, mem_entries_primitiveFragment c p⟩

/-! ## A nullable number with shadowed bounds -/

/-- An upper bound that is no number behind an integer one, and two lower bounds, of which the
second is no number. -/
def shadowed : Annotations :=
  [.boundDouble .maximum .nan, .boundDouble .minimum ⟨0x3fe0000000000000⟩,
    .bound .maximum 10, .boundDouble .minimum .infinity, .length .minLength 3]

def grade : Descriptor Unit where
  serialName := "Grade?"
  kind := .primitive .double
  nullable := true

theorem primitive_entries_grade :
    ∃ f, Encoding.primitive (Generator.context {} (fun _ => grade) 0 grade shadowed) {} =
        .ok f {} ∧
      ∀ n v, (n, v) ∈ f.entries ↔ PrimitiveEntry .double true shadowed n v := by
  obtain ⟨f, hrun⟩ : ∃ f, Encoding.primitive
      (Generator.context {} (fun _ => grade) 0 grade shadowed) {} = .ok f {} := ⟨_, rfl⟩
  obtain ⟨_, _, hentries⟩ := primitive_entries
    (Generator.context {} (fun _ => grade) 0 grade shadowed) (p := .double) rfl {}
  exact ⟨f, hrun, (hentries f {} hrun).2.2⟩

end TypeSchema
