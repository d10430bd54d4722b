/-
  Generators with one strategy replaced.

  The default encodings build nothing but the children that the fragment needs
  (`Generator.asksNeeded_default`): not the keys of maps, and not the cases of enumerations. So a
  generator that has the default strategies for the kinds within reach does what the default
  generator does, step by step (`agrees_of_needed`), whatever its other strategies would do. One
  replaced strategy is a case of this (`schemaOf_replace`).
-/
import TypeSchema.Proofs.Defects

namespace TypeSchema

variable {N : Type}

/-- The places of a generator. Each takes the strategy for one category of kinds. -/
inductive Slot where
  | primitive | enumeration | record | list | map | polymorphic | contextual | marker
deriving DecidableEq

/-- The place whose strategy encodes the kind. A wrapper is looked through and has none. -/
def Kind.slot? : Kind → Option Slot
  | .primitive _ => some .primitive
  | .enumeration => some .enumeration
  | .record => some .record
  | .list => some .list
  | .map => some .map
  | .polymorphic _ => some .polymorphic
  | .contextual => some .contextual
  | .marker => some .marker
  | .wrapper => none

/-- The generator with `strategy` in one place. -/
def Generator.replace (gen : Generator N) (strategy : Strategy N) : Slot → Generator N
  | .primitive => { gen with primitive := strategy }
  | .enumeration => { gen with enumeration := strategy }
  | .record => { gen with record := strategy }
  | .list => { gen with list := strategy }
  | .map => { gen with map := strategy }
  | .polymorphic => { gen with polymorphic := strategy }
  | .contextual => { gen with contextual := strategy }
  | .marker => { gen with marker := strategy }

/-- A kind has the new strategy in its place, or the one it had. -/
theorem Generator.strategy?_replace (gen : Generator N) (strategy : Strategy N) (slot : Slot)
    (k : Kind) : (gen.replace strategy slot).strategy? k =
      if k.slot? = some slot then some strategy else gen.strategy? k := by
  cases slot <;> cases k <;> rfl

/-! ## What the encodings ask for -/

/-- The contexts show the same descriptor, and build the children that it needs in one way. -/
structure Context.SameChildren (c c' : Context N) : Prop where
  graph : c.graph = c'.graph
  descriptor : c.descriptor = c'.descriptor
  annotations : c.annotations = c'.annotations
  fuel : c.fuel = c'.fuel
  build : ∀ x, Needs c.graph c.descriptor x → ∀ as, c.build x as = c'.build x as

/-- On descriptors of the kind `k` the strategy builds nothing but what they need. -/
def AsksNeeded (k : Kind) (strategy : Strategy N) : Prop :=
  ∀ c c' : Context N, c.descriptor.kind = k → c.SameChildren c' → strategy c = strategy c'

/-- Actions that are the same on the elements of a list are the same all along it. -/
theorem mapM_congr_of_mem {α β : Type} {f f' : α → Build β} {as : List α}
    (h : ∀ a ∈ as, f a = f' a) : as.mapM f = as.mapM f' := by
  induction as with
  | nil => rfl
  | cons a as ih =>
    obtain ⟨ha, has⟩ := List.forall_mem_cons.mp h
    rw [List.mapM_cons, List.mapM_cons, ha, ih has]

/-- What follows a result only matters for that result. -/
theorem ofExcept_bind_congr {α β : Type} {x : Except Failure α} {f f' : α → Build β}
    (h : ∀ a, x = .ok a → f a = f' a) : Build.ofExcept x >>= f = Build.ofExcept x >>= f' := by
  cases x with
  | error e => rfl
  | ok a =>
    have ha := h a rfl
    change pure a >>= f = pure a >>= f'
    rw [pure_bind, pure_bind, ha]

section

variable {c c' : Context N}

theorem asksNeeded_primitive (p : Primitive) :
    AsksNeeded (.primitive p) (Encoding.primitive (N := N)) := by
  intro c c' hk h
  rw [encode_primitive c hk, encode_primitive c' (h.descriptor ▸ hk), h.descriptor, h.annotations]

theorem asksNeeded_enumeration : AsksNeeded .enumeration (Encoding.enumeration (N := N)) := by
  intro c c' hk h
  rw [encode_enumeration c hk, encode_enumeration c' (h.descriptor ▸ hk), h.descriptor,
    h.annotations]

theorem Context.SameChildren.elementFragment (h : c.SameChildren c') {e : Element N}
    (he : Needs c.graph c.descriptor (e.child c.graph)) :
    c.elementFragment e = c'.elementFragment e := by
  unfold Context.elementFragment
  rw [h.build _ he, h.graph]

theorem asksNeeded_record : AsksNeeded .record (Encoding.record (N := N)) := by
  intro c c' hk h
  have hfragments : c.descriptor.elements.mapM c.elementFragment =
      c.descriptor.elements.mapM c'.elementFragment :=
    mapM_congr_of_mem fun e he => h.elementFragment (.property hk he)
  rw [encode_record c hk [], encode_record c' (h.descriptor ▸ hk) [], hfragments, h.descriptor,
    h.annotations]

theorem asksNeeded_list : AsksNeeded .list (Encoding.list (N := N)) := by
  intro c c' hk h
  rw [encode_list c hk [], encode_list c' (h.descriptor ▸ hk) [], ← h.descriptor,
    ← h.annotations]
  refine ofExcept_bind_congr fun item hitem => ?_
  have hes := Descriptor.listItem_eq_ok (except_mapError_eq_ok.mp hitem)
  rw [h.elementFragment (.item hk hes)]

theorem asksNeeded_map : AsksNeeded .map (Encoding.map (N := N)) := by
  intro c c' hk h
  rw [encode_map c hk [], encode_map c' (h.descriptor ▸ hk) [], ← h.descriptor,
    ← h.annotations, ← h.graph, ← h.fuel]
  refine ofExcept_bind_congr fun value hvalue => ?_
  obtain ⟨key, _, hes, _⟩ := Descriptor.stringKeyedValue_eq_ok hvalue
  rw [h.elementFragment (.value hk hes)]

theorem asksNeeded_polymorphic (k : Hierarchy) :
    AsksNeeded (.polymorphic k) (Encoding.polymorphic (N := N)) := by
  intro c c' hk h
  cases hes : c.descriptor.elements.isEmpty with
  | true =>
    rw [encode_polymorphic_empty c hes, encode_polymorphic_empty c' (h.descriptor ▸ hes),
      h.descriptor]
  | false =>
    have hvariants : c.descriptor.elements.mapM (fun e => c.build (e.child c.graph) []) =
        c.descriptor.elements.mapM fun e => c'.build (e.child c.graph) [] :=
      mapM_congr_of_mem fun e he => h.build _ (.variant hk he) []
    rw [encode_polymorphic c hk hes, encode_polymorphic c' (h.descriptor ▸ hk)
      (h.descriptor ▸ hes), hvariants, h.descriptor, h.annotations, h.graph]

theorem asksNeeded_contextual : AsksNeeded .contextual (Encoding.contextual (N := N)) := by
  intro c c' _ h
  unfold Encoding.contextual
  rw [h.descriptor]

end

theorem Generator.asksNeeded_default {k : Kind} {strategy : Strategy N}
    (h : ({} : Generator N).strategy? k = some strategy) : AsksNeeded k strategy := by
  cases k with
  | primitive p => cases h; exact asksNeeded_primitive p
  | enumeration => cases h; exact asksNeeded_enumeration
  | record => cases h; exact asksNeeded_record
  | list => cases h; exact asksNeeded_list
  | map => cases h; exact asksNeeded_map
  | polymorphic k => cases h; exact asksNeeded_polymorphic k
  | contextual => cases h; exact asksNeeded_contextual
  | marker => cases h; exact fun c c' _ _ => rfl
  | wrapper => cases h

/-! ## Default strategies within reach -/

/-- For every kind within reach of `d` the generator has the default strategy. -/
def Generator.DefaultOn (gen : Generator N) (g : Graph N) (d : Descriptor N) : Prop :=
  ∀ x, Needed g d x → gen.strategy? x.kind = ({} : Generator N).strategy? x.kind

namespace Generator

variable {gen : Generator N} {g : Graph N} {d d' : Descriptor N}

theorem DefaultOn.of_needs (h : gen.DefaultOn g d) {c : Descriptor N} (hc : Needs g d c) :
    gen.DefaultOn g c := fun x hx => h x (.head hc hx)

/-- The condition is the same for descriptors of one outline. -/
theorem DefaultOn.of_outline (h : gen.DefaultOn g d) (ho : d'.outline = d.outline) :
    gen.DefaultOn g d' := by
  intro x hx
  rcases Relation.ReflTransGen.cases_head hx with rfl | ⟨c, hc, hx⟩
  · rw [Descriptor.kind_eq_of_outline ho]
    exact h d .refl
  · exact h x (.head (hc.of_outline ho) hx)

/-- One step of a build agrees if the builds and encodings below it do. -/
theorem agrees_build_succ {n : Nat} (h : gen.DefaultOn g d)
    (hb : ∀ x, gen.DefaultOn g x → ∀ as, gen.build g n x as = Generator.build {} g n x as)
    (hd : ∀ x, gen.DefaultOn g x → ∀ as,
      gen.dispatch g n x as = Generator.dispatch {} g n x as) (as : Annotations) :
    gen.build g (n + 1) d as = Generator.build {} g (n + 1) d as := by
  rw [build, build]
  by_cases hw : d.isWrapper = true
  · simp only [hw, if_true]
    cases hvalue : d.wrapped with
    | error e => rfl
    | ok value =>
      have hneeds : Needs g d (value.child g) :=
        .inner (Descriptor.isWrapper_iff.mp hw) (Use.wrapped_eq_ok.mp hvalue)
      have hchild := h.of_needs hneeds
      change pure value >>= _ = pure value >>= _
      rw [pure_bind, pure_bind]
      cases d.requestedKey? as with
      | none => exact hb _ (hchild.of_outline (d.outline_passNullable _)) _
      | some key =>
        dsimp only
        rw [hb _ hchild]
  · simp only [hw, Bool.false_eq_true, if_false]
    cases d.requestedKey? as with
    | none => exact hd d h _
    | some key =>
      dsimp only
      rw [hd _ (h.of_outline d.outline_nonNullable)]

/-- The encoding of a descriptor agrees if the builds of the children that it needs do. -/
theorem agrees_dispatch_succ {n : Nat} (h : gen.DefaultOn g d)
    (hb : ∀ x, gen.DefaultOn g x → ∀ as, gen.build g n x as = Generator.build {} g n x as)
    (as : Annotations) : gen.dispatch g (n + 1) d as = Generator.dispatch {} g (n + 1) d as := by
  rw [dispatch, dispatch, h d .refl]
  cases hs : ({} : Generator N).strategy? d.kind with
  | none => rfl
  | some strategy =>
    exact asksNeeded_default hs _ _ rfl
      ⟨rfl, rfl, rfl, rfl, fun x hx as => hb x (h.of_needs hx) as⟩

/-- With the default strategies for all kinds within reach a generator does, with the same fuel
and from every registry, what the default generator does. -/
theorem agrees_of_needed (gen : Generator N) (g : Graph N) (n : Nat) :
    (∀ d, gen.DefaultOn g d → ∀ as, gen.build g n d as = Generator.build {} g n d as) ∧
      ∀ d, gen.DefaultOn g d → ∀ as,
        gen.dispatch g n d as = Generator.dispatch {} g n d as := by
  induction n with
  | zero =>
    refine ⟨fun d _ as => ?_, fun d _ as => ?_⟩
    · rw [build, build]
    · rw [dispatch, dispatch]
  | succ n ih =>
    exact ⟨fun d h as => agrees_build_succ h ih.1 ih.2 as,
      fun d h as => agrees_dispatch_succ h ih.1 as⟩

end Generator

/-- A strategy in a place that no descriptor within reach belongs to is never asked: the document,
or the error, is the one of the default generator, with the same fuel. -/
theorem schemaOf_replace (strategy : Strategy N) (slot : Slot) (g : Graph N) (d : Descriptor N)
    (h : ∀ x, Needed g d x → x.kind.slot? ≠ some slot) (n : Nat) (seed : Annotations) :
    (Generator.replace {} strategy slot).schemaOf g n d seed =
      Generator.schemaOf {} g n d seed := by
  have hdefault : (Generator.replace {} strategy slot).DefaultOn g d := by
    intro x hx
    rw [Generator.strategy?_replace, if_neg (h x hx)]
  unfold Generator.schemaOf
  rw [(Generator.agrees_of_needed _ g n).1 d hdefault seed]

/-! ## Cases that are markers -/

/-- A record in a list that leads back to it, with a state whose cases are markers. -/
def taskGraph : Graph Nat
  | 0 => {
      serialName := "Task"
      kind := .record
      elements := [
        { name := "state", target := 1 },
        { name := "after", target := 3, annotations := [.ref "Tasks"] }] }
  | 1 => {
      serialName := "State"
      kind := .enumeration
      elements := [{ name := "open", target := 2 }, { name := "done", target := 2 }] }
  | 2 => { serialName := "Case", kind := .marker }
  | _ => { serialName := "Tasks", kind := .list, elements := [{ name := "item", target := 0 }] }

theorem eq_of_needed_task {x : Descriptor Nat} (h : Needed taskGraph (taskGraph 0) x) :
    x = taskGraph 0 ∨ x = taskGraph 1 ∨ x = taskGraph 3 := by
  induction h with
  | refl => exact Or.inl rfl
  | tail _ hstep ih =>
    rcases ih with rfl | rfl | rfl
    · cases hstep with
      | property _ he =>
        simp only [taskGraph, List.mem_cons, List.not_mem_nil, or_false] at he
        rcases he with rfl | rfl
        · exact Or.inr (Or.inl rfl)
        · exact Or.inr (Or.inr rfl)
      | item hk | value hk | variant hk | inner hk => cases hk
    · cases hstep with
      | property hk | item hk | value hk | variant hk | inner hk => cases hk
    · cases hstep with
      | item _ hes => cases hes; exact Or.inl rfl
      | property hk | value hk | variant hk | inner hk => cases hk

/-- A strategy for markers that always fails changes nothing here. -/
theorem schemaOf_replace_marker :
    (∃ document, Generator.schemaOf {} taskGraph 9 (taskGraph 0) [] = .ok document) ∧
      (Generator.replace {} Encoding.contextual .marker).schemaOf taskGraph 9
        (taskGraph 0) [] = Generator.schemaOf {} taskGraph 9 (taskGraph 0) [] := by
  refine ⟨⟨_, rfl⟩, schemaOf_replace _ .marker taskGraph (taskGraph 0) ?_ 9 []⟩
  intro x hx
  rcases eq_of_needed_task hx with rfl | rfl | rfl <;> decide

end TypeSchema
