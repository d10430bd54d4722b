/-
  Wrappers that ask for no definition.

  Such a wrapper is one step of the generator: it goes on with the value inside, under more
  annotations and nullable where the wrapper is (`build_of_wrapper`). A chain of them,
  `Unwraps g w ws d`, is a step for each (`build_of_unwraps`), whatever the strategies are: nothing
  is seen of the chain but its annotations, the outermost first, and whether a wrapper of it is
  nullable.
-/
import TypeSchema.Proofs.Reach

namespace TypeSchema

variable {N : Type} {g : Graph N}

/-- The wrappers `ws` stand one inside the other, each around one element, and lead from the
first, `w`, to `d`. None of them asks for a definition. -/
inductive Unwraps (g : Graph N) :
    Descriptor N → List (Descriptor N × Element N) → Descriptor N → Prop
  | inside (d : Descriptor N) : Unwraps g d [] d
  | wrapper {w d : Descriptor N} {value : Element N} {ws} :
    w.kind = .wrapper → w.elements = [value] → w.annotations.hasRef = false →
    Unwraps g (value.child g) ws d → Unwraps g w ((w, value) :: ws) d

/-- The annotations that the value inside is used under, those of the outermost wrapper first. -/
def layerAnnotations (ws : List (Descriptor N × Element N)) : Annotations :=
  ws.flatMap fun layer => layer.1.annotations ++ layer.2.annotations

/-- The descriptor, made nullable if `b` says so. -/
def Descriptor.nullableIf (b : Bool) (d : Descriptor N) : Descriptor N :=
  if b then d.intoNullable else d

namespace Descriptor

variable (b : Bool) (d : Descriptor N)

theorem kind_nullableIf : (d.nullableIf b).kind = d.kind := by
  cases b with
  | false => rfl
  | true => exact kind_eq_of_outline d.outline_intoNullable

theorem elements_nullableIf : (d.nullableIf b).elements = d.elements := by
  cases b with
  | false => rfl
  | true => exact d.elements_intoNullable

theorem annotations_nullableIf : (d.nullableIf b).annotations = d.annotations := by
  cases b with
  | false => rfl
  | true => exact d.annotations_intoNullable

theorem nullable_nullableIf : (d.nullableIf b).nullable = (b || d.nullable) := by
  cases b with
  | false => rfl
  | true => exact d.nullable_intoNullable

/-- A nullable descriptor cannot be made more nullable. -/
theorem nullableIf_of_nullable (h : d.nullable = true) : d.nullableIf b = d := by
  unfold nullableIf intoNullable
  rw [if_pos h]
  split <;> rfl

end Descriptor

/-- A wrapper that asks for no definition hands everything on to the value inside. -/
theorem build_of_wrapper (gen : Generator N) (fuel : Nat) {w : Descriptor N} {value : Element N}
    (hk : w.kind = .wrapper) (hes : w.elements = [value]) (href : w.annotations.hasRef = false)
    (inherited : Annotations) :
    gen.build g (fuel + 1) w inherited = gen.build g fuel ((value.child g).nullableIf w.nullable)
      (inherited ++ w.annotations ++ value.annotations) := by
  have hw : w.isWrapper = true := Descriptor.isWrapper_iff.mpr hk
  have hkey : w.requestedKey? inherited = none := by
    unfold Descriptor.requestedKey?
    rw [hw, href]
    rfl
  rw [Generator.build, if_pos hw, Use.wrapped_eq_ok.mpr hes]
  show (pure value >>= _ : Build Object) = _
  rw [pure_bind, hkey]
  rfl

/-- The chain may be entered nullable: that only shows where it ends. -/
theorem build_nullableIf_of_unwraps (gen : Generator N) (fuel : Nat) {w d : Descriptor N}
    {ws : List (Descriptor N × Element N)} (h : Unwraps g w ws d) (b : Bool)
    (inherited : Annotations) :
    gen.build g (fuel + ws.length) (w.nullableIf b) inherited =
      gen.build g fuel (d.nullableIf (b || ws.any (·.1.nullable)))
        (inherited ++ layerAnnotations ws) := by
  induction h generalizing b inherited with
  | inside d =>
    show gen.build g fuel (d.nullableIf b) inherited = _
    rw [List.any_nil, Bool.or_false]
    exact congrArg _ (List.append_nil inherited).symm
  | @wrapper w d value ws hk hes href _ ih =>
    have hstep := build_of_wrapper (g := g) gen (fuel + ws.length) (w := w.nullableIf b)
      ((w.kind_nullableIf b).trans hk) ((w.elements_nullableIf b).trans hes)
      (by rw [w.annotations_nullableIf b]; exact href) inherited
    rw [w.annotations_nullableIf b, w.nullable_nullableIf b] at hstep
    have hannotations : inherited ++ layerAnnotations ((w, value) :: ws) =
        inherited ++ w.annotations ++ value.annotations ++ layerAnnotations ws := by
      show inherited ++ (w.annotations ++ value.annotations ++ layerAnnotations ws) = _
      rw [List.append_assoc, List.append_assoc, List.append_assoc]
    rw [List.length_cons, ← Nat.add_assoc, hstep, ih, hannotations, List.any_cons, Bool.or_assoc]

/-- Building the outermost wrapper of a chain is building what the chain leads to, under the
annotations of all that stands between, from any registry and with any strategies. What the chain
leads to is made nullable if a wrapper is, and if it is not nullable by itself. -/
theorem build_of_unwraps (gen : Generator N) (fuel : Nat) {w d : Descriptor N}
    {ws : List (Descriptor N × Element N)} (h : Unwraps g w ws d) (inherited : Annotations) :
    gen.build g (fuel + ws.length) w inherited =
      gen.build g fuel (if d.nullable || !ws.any (·.1.nullable) then d else d.intoNullable)
        (inherited ++ layerAnnotations ws) := by
  have hend : d.nullableIf (ws.any (·.1.nullable)) =
      if d.nullable || !ws.any (·.1.nullable) then d else d.intoNullable := by
    cases hn : d.nullable with
    | true => exact d.nullableIf_of_nullable _ hn
    | false =>
      cases ws.any (·.1.nullable) with
      | true => rfl
      | false => rfl
  rw [← hend]
  exact build_nullableIf_of_unwraps gen fuel h false inherited

/-! ## A text in two wrappers -/

def nameValue : Element (Fin 3) where
  name := "text"
  target := 0
  annotations := [.length .maxLength 8]

def labelValue : Element (Fin 3) where
  name := "name"
  target := 1

/-- A text, the wrapper of names around it, and a nullable wrapper of labels around a name. -/
def labelGraph : Graph (Fin 3)
  | 0 => .ofKind "String" (.primitive .string)
  | 1 => .wrapper "Name" nameValue
  | 2 => ((Descriptor.wrapper "Label" labelValue).annotate (.text .title "label")).intoNullable

theorem unwraps_label : Unwraps labelGraph (labelGraph 2)
    [(labelGraph 2, labelValue), (labelGraph 1, nameValue)] (labelGraph 0) :=
  .wrapper rfl rfl rfl (.wrapper rfl rfl rfl (.inside _))

/-- A label is built as a nullable text, with the title from the one wrapper and the length from
the other, behind what the place of use says. -/
theorem build_label : Unwraps labelGraph (labelGraph 2)
      [(labelGraph 2, labelValue), (labelGraph 1, nameValue)] (labelGraph 0) ∧
    ({} : Generator (Fin 3)).build labelGraph (2 + 2) (labelGraph 2) [.text .format "email"] =
      ({} : Generator (Fin 3)).build labelGraph 2 (labelGraph 0).intoNullable
        [.text .format "email", .text .title "label", .length .maxLength 8] :=
  ⟨unwraps_label, build_of_unwraps {} 2 unwraps_label [.text .format "email"]⟩

end TypeSchema
