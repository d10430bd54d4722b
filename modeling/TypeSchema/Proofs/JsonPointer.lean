/-
  Pointers read by the standard.

  RFC 6901 writes the way from a document to a value inside it as a text of tokens, each behind a
  slash; in a fragment identifier the text stands behind `#`. As a slash ends a token, a slash of
  a member name is written `~1`, and a tilde is written `~0`. `follow` reads such a text.

  A reference names its definition by the bare key. So the standard leads a reader to the right
  definition if no slash and no escape occurs in the key (`Readable`), and else to another place
  (`follow_reference_iff`): a key with a slash is read as a longer way, and one with an escape as
  another name.
-/
import Mathlib.Data.List.Infix
import TypeSchema.Proofs.Definitions

namespace TypeSchema

namespace JsonPointer

/-! ## Reading a pointer -/

/-- Every `~` before `c` becomes, with it, the character `a`. -/
def replaceEscape (c a : Char) : List Char → List Char
  | [] => []
  | [x] => [x]
  | x :: y :: cs =>
    if x = '~' ∧ y = c then a :: replaceEscape c a cs else x :: replaceEscape c a (y :: cs)

/-- The name that a token stands for. The slashes come first, so that `~01` is `~1`. -/
def unescape (cs : List Char) : List Char := replaceEscape '0' '~' (replaceEscape '1' '/' cs)

/-- The names in a sequence of tokens with slashes between them. -/
def names (cs : List Char) : List String :=
  (cs.splitOn '/').map fun token => String.ofList (unescape token)

def names? : List Char → Option (List String)
  | ['#'] => some []
  | '#' :: '/' :: cs => some (names cs)
  | _ => none

/-- One step into a value: to the member of that name, or to the item whose index is written
so. -/
def step (value : Json) (name : String) : Option Json :=
  match value with
  | .object members => members.get? name
  | .array items => (items.zipIdx.find? fun e => toString e.2 = name).map Prod.fst
  | _ => none

/-- The value that a pointer leads to. -/
def follow (text : String) (doc : Json) : Option Json :=
  (names? text.toList).bind fun names => names.foldlM step doc

/-! ## Escapes -/

section

variable {c a : Char} {cs : List Char}

theorem length_replaceEscape_le (c a : Char) (cs : List Char) :
    (replaceEscape c a cs).length ≤ cs.length := by
  fun_induction replaceEscape c a cs with
  | case1 => exact Nat.le_refl _
  | case2 x => exact Nat.le_refl _
  | case3 x y cs h ih => rw [List.length_cons, List.length_cons, List.length_cons]; omega
  | case4 x y cs h ih => rw [List.length_cons, List.length_cons]; omega

theorem replaceEscape_of_absent (h : ¬ ['~', c] <:+: cs) : replaceEscape c a cs = cs := by
  fun_induction replaceEscape c a cs with
  | case1 => rfl
  | case2 x => rfl
  | case3 x y cs hxy ih =>
    obtain ⟨rfl, rfl⟩ := hxy
    exact absurd ⟨[], cs, rfl⟩ h
  | case4 x y cs hxy ih => rw [ih fun hcs => h (List.infix_cons hcs)]

/-- An escape is longer than what it stands for. -/
theorem length_replaceEscape_lt (h : ['~', c] <:+: cs) :
    (replaceEscape c a cs).length < cs.length := by
  fun_induction replaceEscape c a cs with
  | case1 => simp at h
  | case2 x => have hlength := h.length_le; simp at hlength
  | case3 x y cs hxy ih =>
    have hle := length_replaceEscape_le c a cs
    rw [List.length_cons, List.length_cons, List.length_cons]
    omega
  | case4 x y cs hxy ih =>
    have hcs : ['~', c] <:+: y :: cs := by
      rcases List.infix_cons_iff.mp h with hprefix | hcs
      · obtain ⟨rest, hrest⟩ := hprefix
        cases hrest
        exact absurd ⟨rfl, rfl⟩ hxy
      · exact hcs
    have hlt := ih hcs
    rw [List.length_cons, List.length_cons]
    omega

theorem length_unescape_le (cs : List Char) : (unescape cs).length ≤ cs.length :=
  Nat.le_trans (length_replaceEscape_le _ _ _) (length_replaceEscape_le _ _ _)

/-- A token stands for itself if there is no escape in it. -/
theorem unescape_eq_self_iff :
    unescape cs = cs ↔ ¬ ['~', '0'] <:+: cs ∧ ¬ ['~', '1'] <:+: cs := by
  have hle := length_replaceEscape_le '0' '~' (replaceEscape '1' '/' cs)
  refine ⟨fun h => ?_, fun ⟨h0, h1⟩ => ?_⟩
  · have h1 : ¬ ['~', '1'] <:+: cs := fun hcs => by
      have hlt := length_replaceEscape_lt (a := '/') hcs
      have hlength := congrArg List.length h
      unfold unescape at hlength
      omega
    refine ⟨fun hcs => ?_, h1⟩
    have hlt := length_replaceEscape_lt (a := '~') hcs
    have hlength := congrArg List.length h
    unfold unescape at hlength
    rw [replaceEscape_of_absent h1] at hlength
    omega
  · unfold unescape
    rw [replaceEscape_of_absent h1, replaceEscape_of_absent h0]

end

/-! ## Names -/

/-- A key that stands for itself in a pointer. -/
structure Readable (key : String) : Prop where
  slash : '/' ∉ key.toList
  escapes : ¬ ['~', '0'] <:+: key.toList ∧ ¬ ['~', '1'] <:+: key.toList

theorem names_of_not_mem {cs : List Char} (h : '/' ∉ cs) :
    names cs = [String.ofList (unescape cs)] := by
  unfold names
  rw [List.splitOn_eq_singleton h, List.map_singleton]

theorem names_of_readable {key : String} (h : Readable key) : names key.toList = [key] := by
  rw [names_of_not_mem h.slash, unescape_eq_self_iff.mpr h.escapes, String.ofList_toList]

/-- A key that is not readable starts with the name of something else. -/
theorem names_of_not_readable {key : String} (h : ¬ Readable key) :
    ∃ name ns, names key.toList = name :: ns ∧ name ≠ key := by
  by_cases hslash : '/' ∈ key.toList
  · obtain ⟨first, rest, hkey, hfirst⟩ := List.eq_append_cons_of_mem hslash
    refine ⟨String.ofList (unescape first), names rest, ?_, fun heq => ?_⟩
    · unfold names
      rw [hkey, List.splitOn_append_cons_self_of_not_mem hfirst, List.map_cons]
    · -- it is shorter
      have hlength := congrArg (fun s : String => s.toList.length) heq
      have hle := length_unescape_le first
      simp only [String.toList_ofList, hkey, List.length_append, List.length_cons] at hlength
      omega
  · refine ⟨_, [], names_of_not_mem hslash, fun heq => h ⟨hslash, ?_⟩⟩
    have hself := congrArg String.toList heq
    rw [String.toList_ofList] at hself
    exact unescape_eq_self_iff.mp hself

/-! ## Pointers into the definitions -/

section

variable {r : Registry} {key : String} {t : Object}

/-- From a document with definitions, a pointer leads to the definitions and then goes on by the
names in its key. -/
theorem follow_refTo (root : Object) (he : r.isEmpty = false) (key : String) :
    follow ("#/$defs/" ++ key) (.object (r.attachTo root)) =
      (names key.toList).foldlM step (.object r.definitions) := by
  have htext : ("#/$defs/" ++ key).toList =
      '#' :: '/' :: ("$defs".toList ++ '/' :: key.toList) := by
    rw [String.toList_append]
    rfl
  have hnames : names ("$defs".toList ++ '/' :: key.toList) = "$defs" :: names key.toList := by
    unfold names
    rw [List.splitOn_append_cons_self_of_not_mem (by decide), List.map_cons]
    rfl
  have hdefs : step (.object (r.attachTo root)) "$defs" = some (.object r.definitions) := by
    show (r.attachTo root).get? "$defs" = _
    rw [Registry.get?_attachTo, if_pos ⟨rfl, he⟩]
  unfold follow
  rw [htext, names?, Option.bind_some, hnames, List.foldlM_cons, hdefs]
  rfl

theorem isEmpty_of_get? (ht : r.get? key = some t) : r.isEmpty = false := by
  cases he : r.isEmpty with
  | false => rfl
  | true =>
    rw [Registry.get?_of_isEmpty he] at ht
    cases ht

/-- A text that is read as the one name `key` leads to the definition under `key`. -/
theorem follow_of_names (root : Object) (hordered : r.entries.Ordered) (ht : r.get? key = some t)
    {text : String} (hnames : names text.toList = [key]) :
    follow ("#/$defs/" ++ text) (.object (r.attachTo root)) = some (.object t) := by
  rw [follow_refTo root (isEmpty_of_get? ht), hnames]
  show (r.definitions.get? key).bind pure = _
  rw [Registry.get?_definitions hordered, ht]
  rfl

/-- The pointers of a reference, read by the standard in a document of any registry that holds
the key, lead to the fragment under the key exactly if the key is readable. -/
theorem follow_reference_iff (key : String) :
    (∀ (r : Registry) (root t : Object) (nullable : Bool), r.entries.Ordered →
      r.get? key = some t → ∀ s j, Within (reference key nullable) s → s.get? "$ref" = some j →
      ∃ text, j = .string text ∧ follow text (.object (r.attachTo root)) = some (.object t)) ↔
    Readable key := by
  refine ⟨fun h => ?_, fun hkey r root t nullable hordered ht s j hs hj => ?_⟩
  · -- in a registry of this key alone, the first name of another key leads nowhere
    by_contra hkey
    obtain ⟨name, ns, hnames, hne⟩ := names_of_not_readable hkey
    let r : Registry := Registry.insert {} key (.ready .empty)
    have hordered : r.entries.Ordered := Table.ordered_insert Table.ordered_empty _ _
    have ht : r.get? key = some .empty := by
      rw [Registry.get?_insert_ready, if_pos rfl]
    obtain ⟨text, htext, hfollow⟩ := h r .empty .empty false hordered ht (pointer key) (refTo key)
      .refl (by rw [get?_pointer]; rfl)
    cases htext
    have hnone : r.definitions.get? name = none := by
      rw [Registry.get?_definitions hordered, Registry.get?_insert_ready, if_neg hne.symm]
      rfl
    rw [follow_refTo _ (isEmpty_of_get? ht), hnames, List.foldlM_cons, step, hnone] at hfollow
    cases hfollow
  · rcases within_reference hs with rfl | hplain
    · rw [get?_pointer, if_pos rfl] at hj
      cases hj
      exact ⟨_, rfl, follow_of_names root hordered ht (names_of_readable hkey)⟩
    · rw [hplain.ref] at hj
      cases hj

/-- Of two definitions, the pointer to one leads nowhere, and the pointer to the other leads to
the first. -/
theorem follow_misread :
    let r := (Registry.insert {} "a/b" (.ready (pointer "A"))).insert "a~1b" (.ready nullFragment)
    follow "#/$defs/a/b" (.object (r.attachTo .empty)) = none ∧
    follow "#/$defs/a~1b" (.object (r.attachTo .empty)) = some (.object (pointer "A")) ∧
    ¬ ∀ (r : Registry) (root t : Object) (key : String) (nullable : Bool), r.entries.Ordered →
      r.get? key = some t → ∀ s j, Within (reference key nullable) s → s.get? "$ref" = some j →
      ∃ text, j = .string text ∧ follow text (.object (r.attachTo root)) = some (.object t) := by
  intro r
  have hordered : r.entries.Ordered :=
    Table.ordered_insert (Table.ordered_insert Table.ordered_empty _ _) _ _
  have hnone : follow "#/$defs/a/b" (.object (r.attachTo .empty)) = none := rfl
  refine ⟨hnone, rfl, fun h => ?_⟩
  obtain ⟨text, htext, hfollow⟩ := h r .empty (pointer "A") "a/b" false hordered rfl
    (pointer "a/b") _ .refl rfl
  cases htext
  change follow "#/$defs/a/b" _ = _ at hfollow
  rw [hnone] at hfollow
  cases hfollow

end

end JsonPointer

end TypeSchema
