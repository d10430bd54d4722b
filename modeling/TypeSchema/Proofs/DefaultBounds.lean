/-
  Bounds of the kind, where no annotation gives any.

  The bounded encoding asks the annotations whether a bound is given, while the plain one writes
  only what bears on the JSON type. For the kinds that have bounds of their own the two questions
  have the same answer (`default_keyword_applies`), so a bound of the kind is added where the plain
  fragment lacks it and nowhere else (`boundedPrimitive_entries`).
-/
import TypeSchema.Proofs.PrimitiveFragment

namespace TypeSchema

variable {N : Type} {p : Primitive}

open SiteKeyword (bound length)

/-- The least and the greatest value of each primitive type of numbers. -/
def ranges : List (Primitive × Number × Number) :=
  [(.byte, .int (-128), .int 127),
    (.short, .int (-32768), .int 32767),
    (.int, .int (-2147483648), .int 2147483647),
    (.long, .int (-9223372036854775808), .int 9223372036854775807),
    (.uByte, .int 0, .int 255),
    (.uShort, .int 0, .int 65535),
    (.uInt, .int 0, .int 4294967295),
    (.uLong, .int 0, .int 18446744073709551615),
    (.float, .double .leastSingle, .double .greatestSingle),
    (.double, .double .least, .double .greatest)]

/-- What a primitive says about its values where nothing else does: the ends of its range, and for
a character that the length of its text is one. -/
inductive DefaultBound (p : Primitive) : String → Json → Prop
  | minimum {low high : Number} : (p, low, high) ∈ ranges →
    DefaultBound p "minimum" (.number low)
  | maximum {low high : Number} : (p, low, high) ∈ ranges →
    DefaultBound p "maximum" (.number high)
  | minLength : p = .char → DefaultBound p "minLength" (.int 1)
  | maxLength : p = .char → DefaultBound p "maxLength" (.int 1)

/-! ## Defaults as keywords -/

namespace Primitive

theorem mem_ranges_iff {range : Number × Number} : (p, range) ∈ ranges ↔ p.range? = some range := by
  constructor
  · have hall : ∀ e ∈ ranges, e.1.range? = some e.2 := by decide
    exact hall _
  · intro h
    cases p with
    | string | char | boolean => cases h
    | _ =>
      cases h
      decide

theorem length?_eq_some_iff {lengths : Nat × Nat} :
    p.length? = some lengths ↔ p = .char ∧ lengths = (1, 1) := by
  cases p <;> simp [length?, eq_comm]

/-- The value that the kind has for the keyword. -/
def default? (p : Primitive) : SiteKeyword → Option Json
  | .bound .minimum => p.range?.map fun range => .number range.1
  | .bound .maximum => p.range?.map fun range => .number range.2
  | .length .minLength => p.length?.map fun lengths => .int lengths.1
  | .length .maxLength => p.length?.map fun lengths => .int lengths.2
  | _ => none

/-- The keywords that can have a default, in the order in which they are filled in. -/
def defaultKeywords : List SiteKeyword :=
  [bound .minimum, bound .maximum, length .minLength, length .maxLength]

/-- The default of the keyword with the name `n`. -/
def defaultOf? (p : Primitive) (ks : List SiteKeyword) (n : String) : Option Json :=
  ks.findSome? fun k => if k.name = n then p.default? k else none

theorem defaultOf?_cons (k : SiteKeyword) (ks : List SiteKeyword) (n : String) :
    p.defaultOf? (k :: ks) n =
      (if k.name = n then p.default? k else none).or (p.defaultOf? ks n) := by
  unfold defaultOf?
  rw [List.findSome?_cons]
  split
  · next v hv => rw [hv, Option.some_or]
  · next hv => rw [hv, Option.none_or]

theorem defaultOf?_eq_some_iff {n : String} {v : Json} :
    p.defaultOf? defaultKeywords n = some v ↔ DefaultBound p n v := by
  unfold defaultOf?
  constructor
  · intro h
    obtain ⟨k, hk, hv⟩ := List.exists_of_findSome?_eq_some h
    obtain ⟨rfl, hv⟩ := Option.ite_none_right_eq_some.mp hv
    simp only [defaultKeywords, List.mem_cons, List.not_mem_nil, or_false] at hk
    rcases hk with rfl | rfl | rfl | rfl <;>
      obtain ⟨ends, hends, rfl⟩ := Option.map_eq_some_iff.mp hv
    · exact .minimum (mem_ranges_iff.mpr hends)
    · exact .maximum (mem_ranges_iff.mpr hends)
    · obtain ⟨hp, rfl⟩ := length?_eq_some_iff.mp hends
      exact .minLength hp
    · obtain ⟨hp, rfl⟩ := length?_eq_some_iff.mp hends
      exact .maxLength hp
  · intro h
    cases h with
    | minimum h =>
      have hrange := mem_ranges_iff.mp h
      simp [defaultKeywords, SiteKeyword.name, Bound.keyword, default?, hrange]
    | maximum h =>
      have hrange := mem_ranges_iff.mp h
      simp [defaultKeywords, SiteKeyword.name, Bound.keyword, default?, hrange]
    | minLength hp =>
      rw [hp]
      rfl
    | maxLength hp =>
      rw [hp]
      rfl

/-- A keyword with a default bears on the JSON type of the kind. -/
theorem default_keyword_applies {k : SiteKeyword} (h : p.default? k ≠ none) :
    k ∈ (Kind.primitive p).siteKeywords := by
  cases k with
  | text t => exact absurd rfl h
  | length t =>
    have hchar : p.length? ≠ none := by
      intro hnone
      cases t <;> exact h (by rw [default?, hnone]; rfl)
    obtain ⟨lengths, hlengths⟩ := Option.ne_none_iff_exists'.mp hchar
    rw [length_mem_siteKeywords, (length?_eq_some_iff.mp hlengths).1]
    exact .string (by decide)
  | bound t =>
    rw [bound_mem_siteKeywords, numeric_iff, ← p.range?_isSome]
    revert h
    unfold default?
    cases p.range? <;> cases t <;> simp

end Primitive

/-! ## Filling in -/

/-- Writes the default of the keyword, unless an annotation gives its value. -/
def Annotations.fill (as : Annotations) (p : Primitive) (s : Object) (k : SiteKeyword) : Object :=
  match as.value? k, p.default? k with
  | none, some v => s.insert k.name v
  | _, _ => s

theorem ordered_foldl_fill (as : Annotations) (p : Primitive) {s : Object} (hs : s.Ordered)
    (ks : List SiteKeyword) : (ks.foldl (as.fill p) s).Ordered := by
  induction ks generalizing s with
  | nil => exact hs
  | cons k ks ih =>
    refine ih ?_
    unfold Annotations.fill
    split
    · exact Table.ordered_insert hs _ _
    · exact hs

section

variable {as : Annotations} {s : Object}

theorem get?_fill {k : SiteKeyword} (hk : p.default? k ≠ none → s.get? k.name = as.value? k)
    (n : String) : (as.fill p s k).get? n =
      (s.get? n).or (if k.name = n then p.default? k else none) := by
  unfold Annotations.fill
  split
  · next v hvalue hv =>
    have hnone : s.get? k.name = none := (hk (by rw [hv]; nofun)).trans hvalue
    rw [Table.get?_insert]
    split
    · next hn => rw [← hn, hnone, hv, Option.none_or]
    · rw [Option.or_none]
  · next hfill =>
    split
    · next hn =>
      cases hv : p.default? k with
      | none => rw [Option.or_none]
      | some v =>
        obtain ⟨w, hw⟩ : ∃ w, as.value? k = some w :=
          Option.ne_none_iff_exists'.mp fun hnone => hfill v hnone hv
        rw [← hn, hk (by rw [hv]; nofun), hw, Option.some_or]
    · rw [Option.or_none]

/-- Where the fragment has the values of the annotations, filling in adds what it lacks. -/
theorem get?_foldl_fill {ks : List SiteKeyword} (hnodup : ks.Nodup)
    (hks : ∀ k ∈ ks, p.default? k ≠ none → s.get? k.name = as.value? k) (n : String) :
    (ks.foldl (as.fill p) s).get? n = (s.get? n).or (p.defaultOf? ks n) := by
  induction ks generalizing s with
  | nil => rw [Primitive.defaultOf?, List.findSome?_nil, Option.or_none]; rfl
  | cons k ks ih =>
    obtain ⟨hk, hrest⟩ := List.forall_mem_cons.mp hks
    obtain ⟨hnot, hnodup⟩ := List.nodup_cons.mp hnodup
    rw [List.foldl_cons, ih hnodup, get?_fill hk, Option.or_assoc, Primitive.defaultOf?_cons]
    · intro k' hk' hdefault
      have hne : k.name ≠ k'.name := fun hname => hnot (SiteKeyword.name_injective hname ▸ hk')
      rw [get?_fill hk, if_neg hne, Option.or_none, hrest k' hk' hdefault]

end

/-! ## The bounded encoding -/

theorem isSome_value?_bound (as : Annotations) (t : Bound) :
    (as.value? (.bound t)).isSome = ((as.bound? t).isSome || (as.boundDouble? t).isSome) := by
  rw [Annotations.value?, Option.isSome_or, Option.isSome_map, Option.isSome_map]

theorem isSome_value?_length (as : Annotations) (t : LengthTag) :
    (as.value? (.length t)).isSome = (as.length? t).isSome := Option.isSome_map

/-- A default that is written where none is given, before the others. -/
theorem Writes.fill {as : Annotations} {k : SiteKeyword} {given : Bool} {w : Write Bool}
    {rest : Write Unit} {f : Object → Except SchemaError Object} (h : Writes rest f)
    (hgiven : (as.value? k).isSome = given) (hw : w = putIfPresent k.name (p.default? k)) :
    Writes (if given = true then rest else w >>= fun _ => rest) fun s =>
      f (as.fill p s k) := by
  subst hgiven hw
  intro draft
  unfold Annotations.fill
  cases as.value? k with
  | some v => exact h draft
  | none =>
    cases p.default? k with
    | none => exact h draft
    | some v => exact h { draft with fragment := draft.fragment.insert k.name v }

/-- The bounded encoding fills in what the plain one leaves open. -/
theorem boundedPrimitive_run (c : Context N) (hk : c.descriptor.kind = .primitive p) :
    Encoding.boundedPrimitive c = do
      let f ← Encoding.primitive c
      return Primitive.defaultKeywords.foldl (c.annotations.fill p) f := by
  have hprimitive : c.descriptor.kind.primitive? = some p := by rw [hk]; rfl
  have hminimum : c.writeDefaultMinimum =
      putIfPresent Bound.minimum.keyword (p.default? (bound .minimum)) := by
    rw [Context.writeDefaultMinimum, hprimitive]; rfl
  have hmaximum : c.writeDefaultMaximum =
      putIfPresent Bound.maximum.keyword (p.default? (bound .maximum)) := by
    rw [Context.writeDefaultMaximum, hprimitive]; rfl
  have hminLength : c.writeDefaultMinLength =
      putIfPresent LengthTag.minLength.keyword (p.default? (length .minLength)) := by
    rw [Context.writeDefaultMinLength, hprimitive]; rfl
  have hmaxLength : c.writeDefaultMaxLength =
      putIfPresent LengthTag.maxLength.keyword (p.default? (length .maxLength)) := by
    rw [Context.writeDefaultMaxLength, hprimitive]; rfl
  have hlast := (writes_pure ()).fill (isSome_value?_length c.annotations .maxLength) hmaxLength
  have hlengths := hlast.fill (isSome_value?_length c.annotations .minLength) hminLength
  have hupper := hlengths.fill (isSome_value?_bound c.annotations .maximum) hmaximum
  have hall := hupper.fill (isSome_value?_bound c.annotations .minimum) hminimum
  unfold Encoding.boundedPrimitive
  exact bind_congr fun f => Write.compose_last hall f

/-- Over the plain fragment the bounds of the kind stand where it says nothing. -/
theorem get?_filled (c : Context N) (p : Primitive) (n : String) :
    (Primitive.defaultKeywords.foldl (c.annotations.fill p) (primitiveFragment c p)).get? n =
      ((primitiveFragment c p).get? n).or (p.defaultOf? Primitive.defaultKeywords n) := by
  refine get?_foldl_fill (by decide) ?_ n
  intro k _ hdefault
  exact get?_primitiveFragment_name c (Primitive.default_keyword_applies hdefault)

/-- The bounded encoding fails exactly where the plain one does and with the same error. Otherwise
its fragment has the entries of the plain one, and of the bounds of the kind those for whose keys
the plain one has no entry. -/
theorem boundedPrimitive_entries (c : Context N) (hk : c.descriptor.kind = .primitive p)
    (r : Registry) :
    (∀ e r', Encoding.boundedPrimitive c r = .error e r' ↔
      Encoding.primitive c r = .error e r') ∧
    ∀ f r', Encoding.primitive c r = .ok f r' →
      ∃ f', Encoding.boundedPrimitive c r = .ok f' r' ∧ f'.Ordered ∧ ∀ n v,
        (n, v) ∈ f'.entries ↔ (n, v) ∈ f.entries ∨ n ∉ f.keys ∧ DefaultBound p n v := by
  rw [boundedPrimitive_run c hk, bind_run]
  rcases primitive_cases c hk r with ⟨_, t, x, _, hrun⟩ | ⟨_, hrun⟩
  · rw [hrun]
    exact ⟨fun e r' => Iff.rfl, nofun⟩
  · rw [hrun]
    refine ⟨fun e r' => ⟨nofun, nofun⟩, fun f r' h => ?_⟩
    cases h
    have hplain := ordered_primitiveFragment c p
    have hfilled := ordered_foldl_fill c.annotations p hplain Primitive.defaultKeywords
    refine ⟨_, rfl, hfilled, fun n v => ?_⟩
    rw [hfilled.mem_entries_iff, hplain.mem_entries_iff, get?_filled, Option.or_eq_some_iff,
      Primitive.defaultOf?_eq_some_iff, Table.get?_eq_none_iff]

/-! ## An integer from one half -/

def count : Descriptor Unit where
  serialName := "Count"
  kind := .primitive .int

/-- The count is bounded below by a double, and above by its kind alone. -/
def countContext : Context Unit :=
  Generator.context {} (fun _ => count) 0 count [.boundDouble .minimum ⟨0x3fe0000000000000⟩]

theorem boundedPrimitive_entries_count :
    ∃ f', Encoding.boundedPrimitive countContext {} = .ok f' {} ∧ f'.Ordered ∧ ∀ n v,
      (n, v) ∈ f'.entries ↔ (n, v) ∈ (primitiveFragment countContext .int).entries ∨
        n ∉ (primitiveFragment countContext .int).keys ∧ DefaultBound .int n v :=
  (boundedPrimitive_entries countContext (p := .int) rfl {}).2 _ {} rfl

example : (primitiveFragment countContext .int).keys = ["minimum", "type"] := by decide

end TypeSchema
