/-
  The plain name of a type, which its nullable form has with a mark behind it.

  `PlainName d s` says so of a descriptor and a name, also for a nullable descriptor without a mark
  and for a name that ends in a mark by itself. The mark is taken off in three places, each in its
  own way: for the key of a definition under the own name, for the form that is not nullable, and
  for the name of a variant. For each of them it is proved to leave the plain name, so they agree.
-/
import Mathlib.Data.List.Infix
import TypeSchema.Proofs.Use

namespace TypeSchema

variable {N : Type}

/-! ## Marks -/

namespace Name

theorem beforeMark?_eq_some_iff {name s : String} : beforeMark? name = some s ↔ name = mark s := by
  unfold beforeMark? mark
  rw [Option.map_eq_some_iff, ← String.toList_inj, String.toList_append]
  constructor
  · rintro ⟨before, hbefore, rfl⟩
    rw [String.toList_ofList]
    exact (List.isSuffixOf?_eq_some_iff_append_eq.mp hbefore).symm
  · intro hname
    exact ⟨s.toList, List.isSuffixOf?_eq_some_iff_append_eq.mpr hname.symm, String.ofList_toList⟩

theorem beforeMark?_mark (name : String) : beforeMark? (mark name) = some name :=
  beforeMark?_eq_some_iff.mpr rfl

theorem beforeMark?_eq_none {name : String} (h : ∀ s, name ≠ mark s) : beforeMark? name = none :=
  Option.eq_none_iff_forall_ne_some.mpr fun s hs => h s (beforeMark?_eq_some_iff.mp hs)

theorem isMarked_eq_false {name : String} (h : ∀ s, name ≠ mark s) : isMarked name = false := by
  refine decide_eq_false fun hlast => h (dropLast name) ?_
  have hsplit : name.toList.dropLast ++ ['?'] = name.toList :=
    List.dropLast_append_getLast? '?' hlast
  rw [mark, ← String.toList_inj, String.toList_append, dropLast, String.toList_ofList]
  exact hsplit.symm

end Name

/-! ## Plain names -/

namespace Descriptor

variable {d : Descriptor N} {s : String}

/-- The name of the type apart from the mark of its nullable form. If the descriptor is not
nullable, a question mark at the end belongs to the name, and a nullable one may lack the mark. -/
inductive PlainName (d : Descriptor N) : String → Prop
  | notNullable : d.nullable = false → PlainName d d.serialName
  | marked {s : String} : d.nullable = true → d.serialName = Name.mark s → PlainName d s
  | unmarked : d.nullable = true → (∀ s, d.serialName ≠ Name.mark s) → PlainName d d.serialName

theorem exists_plainName (d : Descriptor N) : ∃ s, d.PlainName s := by
  cases hnull : d.nullable with
  | false => exact ⟨_, .notNullable hnull⟩
  | true =>
    by_cases hmark : ∃ s, d.serialName = Name.mark s
    · obtain ⟨s, hs⟩ := hmark
      exact ⟨s, .marked hnull hs⟩
    · exact ⟨_, .unmarked hnull fun s hs => hmark ⟨s, hs⟩⟩

namespace PlainName

/-- The key of a definition under the own name. -/
theorem refName? (h : d.PlainName s) :
    Annotation.refBySerialName.refName? d.serialName d.nullable = some s := by
  cases h with
  | notNullable hnull => rw [hnull, Annotation.refName?, if_neg Bool.false_ne_true]
  | marked hnull hname =>
    rw [hnull, hname, Annotation.refName?, if_pos rfl, Name.beforeMark?_mark, Option.getD_some]
  | unmarked hnull hname =>
    rw [hnull, Annotation.refName?, if_pos rfl, Name.beforeMark?_eq_none hname, Option.getD_none]

theorem serialName_nonNullable (h : d.PlainName s) : d.nonNullable.serialName = s := by
  unfold nonNullable
  cases h with
  | notNullable hnull => rw [hnull, if_neg Bool.false_ne_true]
  | marked hnull hname =>
    rw [if_pos hnull]
    dsimp only
    rw [hname, Name.isMarked_mark, if_pos rfl, Name.dropLast_mark]
  | unmarked hnull hname =>
    rw [if_pos hnull]
    dsimp only
    rw [Name.isMarked_eq_false hname, if_neg Bool.false_ne_true]

theorem variantName (h : d.PlainName s) : d.variantName = s := by
  unfold Descriptor.variantName
  cases h with
  | notNullable hnull =>
    rw [hnull]
    cases Name.beforeMark? d.serialName <;> rfl
  | marked hnull hname => simp only [hnull, hname, Name.beforeMark?_mark]
  | unmarked hnull hname => simp only [hnull, Name.beforeMark?_eq_none hname]

theorem unique {t : String} (hs : d.PlainName s) (ht : d.PlainName t) : s = t :=
  hs.variantName.symm.trans ht.variantName

theorem intoNullable (h : d.PlainName s) : d.intoNullable.PlainName s := by
  unfold Descriptor.intoNullable
  cases hnull : d.nullable with
  | true =>
    rw [if_pos rfl]
    exact h
  | false =>
    rw [if_neg Bool.false_ne_true, h.unique (.notNullable hnull)]
    exact .marked rfl rfl

theorem nonNullable (h : d.PlainName s) : d.nonNullable.PlainName s := by
  rw [← h.serialName_nonNullable]
  exact .notNullable (Use.nullable_nonNullable d)

end PlainName

theorem plainName_iff : d.PlainName s ↔ s = d.variantName := by
  obtain ⟨t, ht⟩ := d.exists_plainName
  refine ⟨fun hs => hs.variantName.symm, ?_⟩
  rintro rfl
  rw [ht.variantName]
  exact ht

theorem variantName_intoNullable (d : Descriptor N) :
    d.intoNullable.variantName = d.variantName := by
  obtain ⟨s, hs⟩ := d.exists_plainName
  rw [hs.variantName, hs.intoNullable.variantName]

theorem variantName_nonNullable (d : Descriptor N) : d.nonNullable.variantName = d.variantName := by
  obtain ⟨s, hs⟩ := d.exists_plainName
  rw [hs.variantName, hs.nonNullable.variantName]

end Descriptor

end TypeSchema
