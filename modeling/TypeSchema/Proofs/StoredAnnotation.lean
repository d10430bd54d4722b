/-
  Annotations that are stored and read back.

  The tags have different names, so a stored tag is read as itself (`Tag.ofName?_storedName`), and
  the content of an annotation is read as it was written, unless it is a double that is not finite
  (`Annotation.ofJson?_toJson`). Such a double is never read, whatever stands in its place
  (`Annotation.isFinite_of_ofJson?`): an integer there is rounded to a finite double, as every word
  is far below the greatest one. So what has been read once can be stored and read again
  (`annotations_roundTrip`).
-/
import Mathlib.Algebra.Group.Nat.Defs
import TypeSchema.Proofs.Table
import TypeSchema.Storage.Annotation

namespace TypeSchema

/-! ## Doubles of integers -/

namespace Double

theorem roundShift_le (m k : Nat) : roundShift m k ≤ m / 2 ^ k + 1 := by
  unfold roundShift
  simp only [Nat.shiftRight_eq_div_pow]
  split
  · exact Nat.le_refl _
  · exact Nat.le_succ _

/-- The significand that an integer is rounded to has 53 bits, or is the first one with more. -/
theorem significand_le (n : Nat) :
    (if n.log2 ≤ 52 then n <<< (52 - n.log2) else roundShift n (n.log2 - 52)) ≤ 2 ^ 53 := by
  have hlt : n < 2 ^ (n.log2 + 1) := Nat.lt_log2_self
  split
  · next hlog =>
    rw [Nat.shiftLeft_eq]
    calc n * 2 ^ (52 - n.log2) ≤ 2 ^ (n.log2 + 1) * 2 ^ (52 - n.log2) :=
          Nat.mul_le_mul_right _ (Nat.le_of_lt hlt)
      _ = 2 ^ 53 := by rw [← Nat.pow_add]; congr 1; omega
  · next hlog =>
    have hdiv : n / 2 ^ (n.log2 - 52) < 2 ^ 53 := by
      rw [Nat.div_lt_iff_lt_mul (Nat.two_pow_pos _), ← Nat.pow_add]
      exact Nat.lt_of_lt_of_le hlt (Nat.pow_le_pow_right (by decide) (by omega))
    have hround := roundShift_le n (n.log2 - 52)
    omega

/-- A word is rounded to a double with a small exponent. -/
theorem bitsOfNat_lt {n : Nat} (hn : n ≤ 2 ^ 64) : bitsOfNat n < 2046 * 2 ^ 52 := by
  by_cases hzero : n = 0
  · rw [hzero]; decide
  · have hlog : n.log2 < 65 := (Nat.log2_lt hzero).mpr (by omega)
    have hbits : bitsOfNat n = ((n.log2 + 1022) <<< 52) +
        if n.log2 ≤ 52 then n <<< (52 - n.log2) else roundShift n (n.log2 - 52) := by
      rw [bitsOfNat, if_neg hzero, if_neg (by omega)]
    have hsignificand := significand_le n
    rw [hbits, Nat.shiftLeft_eq]
    omega

theorem isFinite_ofInt {i : Int} (hi : i.natAbs ≤ 2 ^ 64) : (ofInt i).isFinite = true := by
  have hbits := bitsOfNat_lt hi
  unfold isFinite exponent ofInt
  simp only [ne_eq, decide_not, Bool.not_eq_true', decide_eq_false_iff_not,
    Nat.shiftRight_eq_div_pow, Nat.shiftLeft_eq, UInt64.toNat_ofNat']
  -- the sign stands above the exponent field
  split <;> omega

theorem numEq_self {x : Double} (h : x.isFinite = true) : x.numEq x = true := by
  have hexponent : x.exponent ≠ 2047 := by simpa [isFinite] using h
  simp [numEq, isNaN, hexponent]

end Double

/-! ## Numbers -/

namespace Json

theorem word?_int (i : Int) : (int i).word? =
    if 0 ≤ i ∧ i < UInt64.size then some (UInt64.ofNat i.toNat) else none := rfl

theorem word?_toNat (n : UInt64) : (int n.toNat).word? = some n := by
  have hlow : (0 : Int) ≤ n.toNat := Int.natCast_nonneg _
  have hhigh : (n.toNat : Int) < UInt64.size := Int.ofNat_lt.mpr n.toNat_lt_size
  rw [word?_int, if_pos ⟨hlow, hhigh⟩, Int.toNat_natCast, UInt64.ofNat_toNat]

theorem signedWord?_int (i : Int) : (int i).signedWord? =
    if Int64.minValue.toInt ≤ i ∧ i ≤ Int64.maxValue.toInt then some (Int64.ofInt i) else none :=
  rfl

theorem signedWord?_toInt (i : Int64) : (int i.toInt).signedWord? = some i := by
  rw [signedWord?_int, if_pos ⟨i.minValue_le_toInt, i.toInt_le⟩, Int64.ofInt_toInt]

theorem double?_ofDouble (x : Double) :
    (ofDouble x).double? = if x.isFinite then some x else none := by
  unfold ofDouble
  by_cases hx : x.isFinite = true
  · rw [if_pos hx, double?, if_pos hx]
  · rw [if_neg hx, if_neg hx]
    rfl

/-- Whatever number is read as a double, the double is finite. -/
theorem isFinite_of_double? {j : Json} {x : Double} (h : j.double? = some x) :
    x.isFinite = true := by
  unfold double? at h
  split at h
  · next i =>
    obtain ⟨⟨hlow, hhigh⟩, hsome⟩ := Option.ite_none_right_eq_some.mp h
    rw [Int64.toInt_minValue] at hlow
    simp only [UInt64.size] at hhigh
    rw [← Option.some.inj hsome]
    exact Double.isFinite_ofInt (by omega)
  · obtain ⟨hx, hsome⟩ := Option.ite_none_right_eq_some.mp h
    exact Option.some.inj hsome ▸ hx
  · cases h

end Json

/-! ## Tags -/

/-- No tag comes before another one of its name. -/
theorem Tag.ofName?_storedName (t : Tag) : Tag.ofName? t.storedName = some t := by
  cases t with
  | text t => cases t <;> decide
  | length t => cases t <;> decide
  | bound t => cases t <;> decide
  | boundDouble t => cases t <;> decide
  | ref => decide
  | refBySerialName => decide

/-! ## One annotation -/

namespace Annotation

/-- The double that the annotation carries, if it carries one, is finite. -/
def isFinite : Annotation → Bool
  | boundDouble _ x => x.isFinite
  | _ => true

theorem ofContent?_content? (a : Annotation) :
    ofContent? a.tag a.content? = if a.isFinite then some a else none := by
  cases a with
  | text t s => rfl
  | length t n =>
    rw [tag, content?, ofContent?, Json.word?_toNat]
    rfl
  | bound t i =>
    rw [tag, content?, ofContent?, Json.signedWord?_toInt]
    rfl
  | boundDouble t x =>
    rw [tag, content?, ofContent?, Json.double?_ofDouble, isFinite]
    cases x.isFinite <;> rfl
  | ref key => rfl
  | refBySerialName => rfl

theorem ofJson?_object {members : Object} {t : Tag} {content : Option Json}
    (htag : members.get? "tag" = some (.string t.storedName))
    (hvalue : members.get? "value" = content) :
    ofJson? (.object members) = ofContent? t content := by
  simp [ofJson?, htag, hvalue, Json.bareChoice?, Json.choice?, Tag.ofName?_storedName]

/-- An annotation is read back, unless its double has been stored as `null`. -/
theorem ofJson?_toJson (a : Annotation) :
    ofJson? a.toJson = if a.isFinite then some a else none := by
  rw [← ofContent?_content?]
  unfold toJson
  cases a.content? with
  | none => exact ofJson?_object (Table.get?_ofList (by simp) _) (Table.get?_ofList (by simp) _)
  | some content =>
    exact ofJson?_object (Table.get?_ofList (by simp) _) (Table.get?_ofList (by simp) _)

theorem isFinite_of_ofContent? {t : Tag} {content : Option Json} {a : Annotation}
    (h : ofContent? t content = some a) : a.isFinite = true := by
  unfold ofContent? at h
  split at h
  · obtain ⟨_, _, rfl⟩ := Option.map_eq_some_iff.mp h; rfl
  · obtain ⟨_, _, rfl⟩ := Option.map_eq_some_iff.mp h; rfl
  · obtain ⟨_, _, rfl⟩ := Option.map_eq_some_iff.mp h; rfl
  · obtain ⟨x, hx, rfl⟩ := Option.map_eq_some_iff.mp h
    exact Json.isFinite_of_double? hx
  · obtain ⟨_, _, rfl⟩ := Option.map_eq_some_iff.mp h; rfl
  · cases h; rfl
  · cases h; rfl
  · cases h

theorem isFinite_of_ofJson? {j : Json} {a : Annotation} (h : ofJson? j = some a) :
    a.isFinite = true := by
  unfold ofJson? at h
  split at h
  · obtain ⟨_, _, h⟩ := Option.bind_eq_some_iff.mp h
    obtain ⟨_, _, h⟩ := Option.bind_eq_some_iff.mp h
    obtain ⟨_, _, h⟩ := Option.bind_eq_some_iff.mp h
    exact isFinite_of_ofContent? h
  · obtain ⟨_, _, h⟩ := Option.bind_eq_some_iff.mp h
    exact isFinite_of_ofContent? h
  · cases h

theorem numEq_self {a : Annotation} (h : a.isFinite = true) : a.numEq a = true := by
  cases a with
  | boundDouble t x =>
    have hx : x.numEq x = true := Double.numEq_self h
    simp [numEq, hx]
  | _ => simp [numEq]

end Annotation

/-! ## Lists of annotations -/

namespace Annotations

variable {as : Annotations}

theorem all_isFinite_iff : as.all (·.isFinite) = true ↔
    ∀ t x, .boundDouble t x ∈ as → x.isFinite = true := by
  rw [List.all_eq_true]
  constructor
  · exact fun h t x hx => h _ hx
  · intro h a ha
    cases a with
    | boundDouble t x => exact h t x ha
    | _ => rfl

/-- One double that is not finite keeps the whole list from being read. -/
theorem ofJson?_toJson (as : Annotations) :
    ofJson? as.toJson = if as.all (·.isFinite) then some as else none := by
  change (as.map Annotation.toJson).mapM Annotation.ofJson? = _
  induction as with
  | nil => rfl
  | cons a as ih =>
    rw [List.map_cons, List.mapM_cons, ih, Annotation.ofJson?_toJson, List.all_cons]
    cases a.isFinite <;> cases as.all (·.isFinite) <;> rfl

theorem all_isFinite_of_ofJson? {j : Json} (h : ofJson? j = some as) :
    as.all (·.isFinite) = true := by
  unfold ofJson? at h
  split at h
  · next items =>
    induction items generalizing as with
    | nil => cases h; rfl
    | cons j items ih =>
      rw [List.mapM_cons] at h
      obtain ⟨a, ha, h⟩ := Option.bind_eq_some_iff.mp h
      obtain ⟨as', has, h⟩ := Option.bind_eq_some_iff.mp h
      obtain rfl := Option.some.inj h
      rw [List.all_cons, Annotation.isFinite_of_ofJson? ha, ih has]
      rfl
  · cases h

theorem numEq_self (h : as.all (·.isFinite) = true) : as.numEq as = true := by
  induction as with
  | nil => rfl
  | cons a as ih =>
    rw [List.all_cons, Bool.and_eq_true] at h
    rw [numEq, Annotation.numEq_self h.1, ih h.2]
    rfl

theorem roundTrip_of_all_isFinite (h : as.all (·.isFinite) = true) :
    ofJson? as.toJson = some as ∧ as.numEq as = true :=
  ⟨by rw [ofJson?_toJson, if_pos h], numEq_self h⟩

end Annotations

/-- A list of annotations whose doubles are finite is read back as it was, and equals itself by its
numbers too. With any other double in it nothing is read back. What has been read, from whatever
JSON, can be stored and read again. -/
theorem annotations_roundTrip (as : Annotations) :
    ((∀ t x, .boundDouble t x ∈ as → x.isFinite = true) →
      Annotations.ofJson? as.toJson = some as ∧ as.numEq as = true) ∧
    (∀ t x, .boundDouble t x ∈ as → x.isFinite = false →
      Annotations.ofJson? as.toJson = none) ∧
    ∀ j, Annotations.ofJson? j = some as →
      Annotations.ofJson? as.toJson = some as ∧ as.numEq as = true := by
  refine ⟨fun h => ?_, fun t x hx hinfinite => ?_, fun j hj => ?_⟩
  · exact Annotations.roundTrip_of_all_isFinite (Annotations.all_isFinite_iff.mpr h)
  · rw [Annotations.ofJson?_toJson, if_neg]
    intro hall
    rw [Annotations.all_isFinite_iff.mp hall t x hx] at hinfinite
    cases hinfinite
  · exact Annotations.roundTrip_of_all_isFinite (Annotations.all_isFinite_of_ofJson? hj)

/-! ## The ends of the words, and other spellings -/

def extremes : Annotations :=
  [.length .maxLength 18446744073709551615, .bound .minimum Int64.minValue,
    .boundDouble .maximum .greatest, .boundDouble .minimum ⟨0x8000000000000000⟩, .ref "~1/?"]

/-- A tag that is written as a choice, a list of the tag and an integer where a double is meant, and
a member that nobody asks for. -/
def otherSpellings : Json := .array [
  Json.ofEntries [("value", .string "Id"), ("tag", Json.ofEntries [("title", .null)])],
  .array [.string "minimum_double", .int (-3)],
  Json.ofEntries [("tag", .string "ref_with_serial_name"), ("value", .null), ("note", .bool true)]]

def spelled : Annotations :=
  [.text .title "Id", .boundDouble .minimum ⟨0xc008000000000000⟩, .refBySerialName]

theorem roundTrip_extremes :
    (Annotations.ofJson? extremes.toJson = some extremes ∧ extremes.numEq extremes = true) ∧
    Annotations.ofJson? (Annotations.toJson (.boundDouble .maximum .infinity :: extremes)) = none ∧
    Annotations.ofJson? otherSpellings = some spelled ∧
      Annotations.ofJson? spelled.toJson = some spelled ∧ spelled.numEq spelled = true := by
  have hread : Annotations.ofJson? otherSpellings = some spelled := by decide
  refine ⟨?_, ?_, hread, (annotations_roundTrip spelled).2.2 otherSpellings hread⟩
  · exact (annotations_roundTrip extremes).1 (Annotations.all_isFinite_iff.mp (by decide))
  · exact (annotations_roundTrip _).2.1 .maximum .infinity List.mem_cons_self (by decide)

end TypeSchema
