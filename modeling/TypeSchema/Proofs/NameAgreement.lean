/-
  The places that take the mark off a name agree.

  `Named d s` says of each place, and in the case of a variant of the fragment that it writes, that
  `s` comes of it. That is the plain name of the descriptor and of its nullable form
  (`plainName_shared`).
-/
import TypeSchema.Proofs.PlainName
import TypeSchema.Proofs.Position
import TypeSchema.Proofs.TwoUses

namespace TypeSchema

variable {N : Type}

/-! ## Tags -/

/-- The text that an alternative of a choice demands in the property `discriminator`. -/
def tagName? (discriminator : String) (alternative : Object) : Option String := do
  let .array [_, .object tag] ← alternative.get? "allOf" | none
  let .object properties ← tag.get? "properties" | none
  let .object literal ← properties.get? discriminator | none
  let .array [.string name] ← literal.get? "enum" | none
  return name

theorem tagName?_taggedWith (discriminator name : String) (body : Object) :
    tagName? discriminator (taggedWith discriminator name body) = some name := by
  have htag : (Context.tag discriminator name).get? "properties" =
      some (Json.ofEntries [(discriminator, .object (literal name))]) := get?_tagUnder _ _ _
  have hproperty : (Table.ofList [(discriminator, Json.object (literal name))]).get? discriminator =
      some (.object (literal name)) := by
    rw [Table.get?_ofList_singleton, if_pos rfl]
  unfold tagName?
  rw [get?_taggedWith, if_pos rfl]
  simp only [Option.bind_eq_bind, Option.bind_some, htag, Json.ofEntries, hproperty, get?_literal,
    Json.strings, List.map_cons, List.map_nil, if_true]
  rfl

/-! ## Agreement -/

namespace Descriptor

/-- Every place that takes the mark off the name of `d` comes to `s`. -/
structure Named (d : Descriptor N) (s : String) : Prop where
  /-- The key, where the first request is one for a definition under the own name. -/
  key : ∀ before after : Annotations, before.hasRef = false →
    (before ++ .refBySerialName :: after).refName? d.serialName d.nullable = some s
  nonNullable : d.nonNullable.serialName = s
  /-- The tag, wherever the fragment of the variant can be built. -/
  tag : ∀ (c : Context N) (discriminator : String) (r r' : Registry) (body : Object),
    c.build d [] r = .ok body r' → ∃ alternative,
      c.variantFragment discriminator d r = .ok alternative r' ∧
      tagName? discriminator alternative = some s

theorem PlainName.named {d : Descriptor N} {s : String} (h : d.PlainName s) : d.Named s where
  key before after hbefore := by
    rw [Annotations.refName?_append, Annotations.refName?_eq_none hbefore, Option.none_or,
      Annotations.refName?, List.findSome?_cons, h.refName?]
  nonNullable := h.serialName_nonNullable
  tag c discriminator r r' body hbody := by
    refine ⟨taggedWith discriminator s body, ?_, tagName?_taggedWith _ _ _⟩
    unfold Context.variantFragment
    rw [bind_run, hbody, h.variantName]
    rfl

/-- However often a descriptor is made nullable, it is as if it were made so once. -/
theorem iterate_intoNullable (d : Descriptor N) (n : Nat) :
    intoNullable^[n + 1] d = d.intoNullable := by
  rw [Function.iterate_succ_apply]
  exact Function.iterate_fixed d.intoNullable_intoNullable n

end Descriptor

/-- A descriptor has one plain name, and the three places agree on it. Made nullable and back, a
descriptor that is not nullable is what it was, and its nullable form has the same plain name.
Making it nullable more than once changes nothing. -/
theorem plainName_shared (d : Descriptor N) :
    (∃ s, d.PlainName s ∧ (∀ t, d.PlainName t → t = s) ∧ d.Named s ∧
      (d.nullable = false → d.intoNullable.nonNullable = d ∧ d.intoNullable.PlainName s ∧
        d.intoNullable.Named s)) ∧
    ∀ n, Descriptor.intoNullable^[n + 1] d = d.intoNullable := by
  obtain ⟨s, hs⟩ := d.exists_plainName
  refine ⟨⟨s, hs, fun t ht => ht.unique hs, hs.named, fun hnull => ?_⟩, d.iterate_intoNullable⟩
  exact ⟨d.nonNullable_intoNullable hnull, hs.intoNullable, hs.intoNullable.named⟩

end TypeSchema
