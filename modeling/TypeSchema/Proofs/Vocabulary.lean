/-
  The words of schemas, and the kinds and annotations that they are for.

  What is said about schemas is said with the tables here: which primitive types are written as
  values of which JSON type, and which keyword an annotation is for. Beside each table stands the
  lemma that the encodings keep to it.
-/
import Mathlib.Data.List.Basic
import TypeSchema.Keyword

namespace TypeSchema

/-! ## Types -/

/-- The names of the JSON types. -/
def typeNames : List String :=
  ["string", "integer", "number", "boolean", "array", "object", "null"]

theorem JsonType.name_mem_typeNames (t : JsonType) : t.name ∈ typeNames := by
  cases t <;> decide

theorem JsonType.name_injective {t t' : JsonType} (h : t.name = t'.name) : t = t' := by
  revert h
  cases t <;> cases t' <;> decide

namespace Primitive

/-- The values of the primitive type are written as values of the JSON type of this name. -/
inductive WrittenAs : Primitive → String → Prop
  | string {p} : p ∈ [string, char] → WrittenAs p "string"
  | boolean : WrittenAs boolean "boolean"
  | integer {p} : p ∈ [byte, short, int, long, uByte, uShort, uInt, uLong] → WrittenAs p "integer"
  | number {p} : p ∈ [float, double] → WrittenAs p "number"

variable {p : Primitive} {name : String}

theorem writtenAs_jsonType (p : Primitive) : p.WrittenAs p.jsonType.name := by
  cases p with
  | string | char => exact .string (by decide)
  | boolean => exact .boolean
  | byte | short | int | long | uByte | uShort | uInt | uLong => exact .integer (by decide)
  | float | double => exact .number (by decide)

theorem writtenAs_iff : p.WrittenAs name ↔ name = p.jsonType.name := by
  constructor
  · intro h
    cases h with
    | string hp =>
      revert p
      decide
    | boolean => rfl
    | integer hp =>
      revert p
      decide
    | number hp =>
      revert p
      decide
  · rintro rfl
    exact p.writtenAs_jsonType

theorem writtenAs_string_iff : p.WrittenAs "string" ↔ p.jsonType = .string := by
  rw [writtenAs_iff]
  cases p.jsonType <;> decide

/-- The values are written as numbers, with a fractional part or without one. -/
def Numeric (p : Primitive) : Prop := p.WrittenAs "integer" ∨ p.WrittenAs "number"

theorem numeric_iff : p.Numeric ↔ p.jsonType.isNumeric = true := by
  rw [Numeric, writtenAs_iff, writtenAs_iff]
  cases p.jsonType <;> decide

end Primitive

/-! ## Keywords -/

/-- The keywords that describe a type to a reader. -/
def documentationKeywords : List (TextTag × String) :=
  [(.title, "title"), (.description, "description"), (.comment, "$comment")]

/-- The keywords that constrain a text but for its length. -/
def textKeywords : List (TextTag × String) := [(.format, "format"), (.pattern, "pattern")]

def lengthKeywords : List (LengthTag × String) :=
  [(.minLength, "minLength"), (.maxLength, "maxLength")]

def boundKeywords : List (Bound × String) :=
  [(.minimum, "minimum"), (.maximum, "maximum"), (.exclusiveMinimum, "exclusiveMinimum"),
    (.exclusiveMaximum, "exclusiveMaximum"), (.multipleOf, "multipleOf")]

section

variable {k : String}

theorem mem_documentationKeywords {t : TextTag} : (t, k) ∈ documentationKeywords ↔
    t ∈ [TextTag.title, .description, .comment] ∧ k = t.keyword := by
  cases t <;> simp [documentationKeywords, TextTag.keyword]

theorem mem_textKeywords {t : TextTag} : (t, k) ∈ textKeywords ↔
    t ∈ [TextTag.format, .pattern] ∧ k = t.keyword := by
  cases t <;> simp [textKeywords, TextTag.keyword]

theorem mem_lengthKeywords {t : LengthTag} : (t, k) ∈ lengthKeywords ↔ k = t.keyword := by
  cases t <;> simp [lengthKeywords, LengthTag.keyword]

theorem mem_boundKeywords {t : Bound} : (t, k) ∈ boundKeywords ↔ k = t.keyword := by
  cases t <;> simp [boundKeywords, Bound.keyword]

end

end TypeSchema
