/-
  What was registered before does not show in a fragment.

  `Agrees R x y` compares a run of `x` with a run of `y`, from states that `R` relates: if both
  succeed they have one result, and `R` relates the states that they leave. Two builds are
  compared whatever their registries hold (`SameResult`), two writes on one fragment
  (`SameDraft`). A generator is oblivious if none of its strategies tells two contexts apart by
  their registries, and then all that it builds agrees (`Generator.Oblivious.build`).
-/
import TypeSchema.Proofs.Reach

namespace TypeSchema

variable {N : Type} {α β σ : Type}

/-- Where both succeed, `x` and `y` have one result, and keep their states related. -/
def Agrees (R : σ → σ → Prop) (x y : EStateM Failure σ α) : Prop :=
  ∀ s s', R s s' → ∀ a t b t', x s = .ok a t → y s' = .ok b t' → a = b ∧ R t t'

/-- Two builds have one result, whatever registries they start from. -/
abbrev SameResult (x y : Build α) : Prop := Agrees (fun _ _ => True) x y

/-- Two writes on one fragment leave one fragment, whatever the registries. -/
abbrev SameDraft (x y : Write α) : Prop := Agrees (fun d d' => d.fragment = d'.fragment) x y

namespace Agrees

section

variable {R : σ → σ → Prop} {x y : EStateM Failure σ α}

theorem pure (a : α) : Agrees R (pure a) (pure a) := by
  intro s s' hs b t c t' hb hc
  cases hb
  cases hc
  exact ⟨rfl, hs⟩

theorem throw_left (e : Failure) : Agrees R (throw e) y := fun _ _ _ _ _ _ _ h => by cases h

theorem throw_right (e : Failure) : Agrees R x (throw e) := fun _ _ _ _ _ _ _ _ h => by cases h

theorem bind {k l : α → EStateM Failure σ β} (h : Agrees R x y)
    (hk : ∀ a, Agrees R (k a) (l a)) : Agrees R (x >>= k) (y >>= l) := by
  intro s s' hs a t b t' ha hb
  rw [bind_run] at ha hb
  cases hx : x s with
  | error e s₁ => rw [hx] at ha; cases ha
  | ok c s₁ =>
    cases hy : y s' with
    | error e s₁' => rw [hy] at hb; cases hb
    | ok c' s₁' =>
      rw [hx] at ha
      rw [hy] at hb
      obtain ⟨rfl, hs₁⟩ := h s s' hs c s₁ c' s₁' hx hy
      exact hk c s₁ s₁' hs₁ a t b t' ha hb

theorem mapM {b b' : α → EStateM Failure σ β} (h : ∀ a, Agrees R (b a) (b' a)) (as : List α) :
    Agrees R (as.mapM b) (as.mapM b') := by
  induction as with
  | nil => exact pure []
  | cons a as ih =>
    rw [List.mapM_cons, List.mapM_cons]
    exact (h a).bind fun _ => ih.bind fun _ => pure _

theorem orFail (x : Except SchemaError α) :
    Agrees R (TypeSchema.orFail x) (TypeSchema.orFail x) := by
  cases x with
  | ok a => exact pure a
  | error e => exact throw_left _

end

theorem ofExcept {x y : Except Failure α} (h : ∀ a b, x = .ok a → y = .ok b → a = b) :
    SameResult (Build.ofExcept x) (Build.ofExcept y) := by
  intro r r' _ a t b t' ha hb
  obtain ⟨hx, _⟩ := ofExcept_eq_ok.mp ha
  obtain ⟨hy, _⟩ := ofExcept_eq_ok.mp hb
  exact ⟨h a b hx hy, trivial⟩

theorem ofExcept_self (x : Except Failure α) :
    SameResult (Build.ofExcept x) (Build.ofExcept x) :=
  ofExcept fun _ _ ha hb => Except.ok.inj (ha.symm.trans hb)

/-- Every use of a key that succeeds is the same pointer, however its definition is built. -/
theorem request (key : String) (nullable : Bool) (b b' : Build Object) :
    SameResult (request key nullable (some b)) (request key nullable (some b')) := by
  rw [Use.request_reference key nullable b, Use.request_reference key nullable b']
  intro r r' _ f t f' t' hf hf'
  obtain ⟨_, _, _, hf⟩ := bind_eq_ok.mp hf
  obtain ⟨_, _, _, hf'⟩ := bind_eq_ok.mp hf'
  cases hf
  cases hf'
  exact ⟨rfl, trivial⟩

/-! ## Writes -/

theorem put (keyword : String) (value : Json) :
    SameDraft (put keyword value) (put keyword value) := by
  intro d d' hd a t b t' ha hb
  cases ha
  cases hb
  exact ⟨rfl, congrArg (·.insert keyword value) hd⟩

theorem putIfPresent (keyword : String) (value : Option Json) :
    SameDraft (putIfPresent keyword value) (putIfPresent keyword value) := by
  cases value with
  | none => exact pure false
  | some value => exact (put keyword value).bind fun _ => pure true

theorem of_writes {w : Write Unit} {f : Object → Except SchemaError Object} (h : Writes w f) :
    SameDraft w w := by
  intro d d' hd a t b t' ha hb
  have hw := h d
  have hw' := h d'
  rw [← hd] at hw'
  cases hf : f d.fragment with
  | error e =>
    rw [hf] at hw
    obtain ⟨s, hs⟩ := hw
    rw [hs] at ha
    cases ha
  | ok s =>
    rw [hf] at hw hw'
    obtain ⟨_, hs⟩ := hw
    obtain ⟨_, hs'⟩ := hw'
    rw [hs] at ha
    rw [hs'] at hb
    cases ha
    cases hb
    exact ⟨rfl, rfl⟩

theorem compose {w w' : Write Unit} (h : SameDraft w w') (start : Object) :
    SameResult (Write.compose start w) (Write.compose start w') := by
  intro r r' _ f t f' t' hf hf'
  unfold Write.compose at hf hf'
  cases hw : w { fragment := start, registry := r } with
  | error e d => rw [hw] at hf; cases hf
  | ok a d =>
    cases hw' : w' { fragment := start, registry := r' } with
    | error e d' => rw [hw'] at hf'; cases hf'
    | ok a' d' =>
      rw [hw] at hf
      rw [hw'] at hf'
      cases hf
      cases hf'
      exact ⟨(h { fragment := start, registry := r } { fragment := start, registry := r' } rfl
        a d a' d' hw hw').2, trivial⟩

end Agrees

/-! ## Looking through wrappers -/

/-- There is one descriptor inside all wrappers, whatever fuel it takes to find it. -/
theorem innermost_unique {g : Graph N} {n m : Nat} {d x y : Descriptor N}
    (hx : d.innermost g n = .ok x) (hy : d.innermost g m = .ok y) : x = y := by
  have hmono : ∀ {n m : Nat} {x : Descriptor N}, n ≤ m → d.innermost g n = .ok x →
      d.innermost g m = .ok x := by
    intro n m x hnm hx
    induction hnm with
    | refl => exact hx
    | @step m _ ih =>
      rcases innermost_succ g m d with h | h
      · rw [ih] at h; cases h
      · rw [← h, ih]
  have h := hmono (Nat.le_max_left n m) hx
  rw [hmono (Nat.le_max_right n m) hy] at h
  exact (Except.ok.inj h).symm

theorem stringKeyedValue_unique {g : Graph N} {n m : Nat} {d : Descriptor N} {e e' : Element N}
    (he : d.stringKeyedValue g n = .ok e) (he' : d.stringKeyedValue g m = .ok e') : e = e' := by
  unfold Descriptor.stringKeyedValue at he he'
  obtain ⟨entries, hentries, he⟩ := except_bind_eq_ok.mp he
  obtain ⟨entries', hentries', he'⟩ := except_bind_eq_ok.mp he'
  obtain rfl := Except.ok.inj (hentries.symm.trans hentries')
  obtain ⟨key, _, he⟩ := except_bind_eq_ok.mp he
  obtain ⟨key', _, he'⟩ := except_bind_eq_ok.mp he'
  have hvalue : ∀ {k : Descriptor N} {v : Element N}, (if k.kind = .primitive .string then
      .ok entries.2 else .error (.schema (.unsupportedMapKey d.serialName k.serialName)) :
        Except Failure (Element N)) = .ok v → v = entries.2 := by
    intro k v hv
    split at hv
    · exact (Except.ok.inj hv).symm
    · cases hv
  rw [hvalue he, hvalue he']

/-! ## Oblivious strategies -/

/-- The contexts show a strategy the same type, under the same annotations, and give it the same
fragments, whatever their registries hold. -/
structure Context.Alike (c c' : Context N) : Prop where
  graph : c.graph = c'.graph
  descriptor : c.descriptor = c'.descriptor
  annotations : c.annotations = c'.annotations
  build : ∀ d as, SameResult (c.build d as) (c'.build d as)
  dispatch : ∀ d as, SameResult (c.dispatch d as) (c'.dispatch d as)

/-- On descriptors of the kind `k` the strategy does not ask what is registered. -/
def ObliviousOn (k : Kind) (strategy : Strategy N) : Prop :=
  ∀ c c' : Context N, c.descriptor.kind = k → c.Alike c' → SameResult (strategy c) (strategy c')

def Generator.Oblivious (gen : Generator N) : Prop :=
  ∀ k strategy, gen.strategy? k = some strategy → ObliviousOn k strategy

namespace Generator

variable {gen : Generator N}

theorem sameDraft_writeUseSite (as : Annotations) (target : Descriptor N) :
    SameDraft (writeUseSite as target) (writeUseSite as target) :=
  .of_writes (Use.writes_useSite as target)

theorem sameResult_refer (key : String) (nullable : Bool) (b b' : Build Object)
    (as : Annotations) {target target' : Except Failure (Descriptor N)}
    (h : ∀ t t', target = .ok t → target' = .ok t' → t = t') :
    SameResult (refer key nullable b as target) (refer key nullable b' as target') := by
  unfold refer
  refine (Agrees.request key nullable b b').bind fun use => ?_
  cases target with
  | error e => exact Agrees.throw_left e
  | ok t =>
    cases target' with
    | error e => exact Agrees.throw_right e
    | ok t' =>
      obtain rfl := h t t' rfl rfl
      exact (sameDraft_writeUseSite as t).compose use

variable {g : Graph N} {n m : Nat}

/-- What an oblivious generator builds with more fuel agrees if what it builds below does. -/
theorem sameResult_build_succ (hb : ∀ d as, SameResult (gen.build g n d as) (gen.build g m d as))
    (hd : ∀ d as, SameResult (gen.dispatch g n d as) (gen.dispatch g m d as)) (d : Descriptor N)
    (as : Annotations) : SameResult (gen.build g (n + 1) d as) (gen.build g (m + 1) d as) := by
  rw [build, build]
  by_cases hw : d.isWrapper = true
  · simp only [hw, if_true]
    refine (Agrees.orFail d.wrapped).bind fun value => ?_
    cases d.requestedKey? as with
    | none => exact hb _ _
    | some key =>
      have hinner : ∀ t t', (value.child g).innermost g n = .ok t →
          (value.child g).innermost g m = .ok t' → t = t' := fun _ _ => innermost_unique
      exact sameResult_refer key d.nullable _ _ as hinner
  · simp only [hw, Bool.false_eq_true, if_false]
    cases d.requestedKey? as with
    | none => exact hd _ _
    | some key =>
      exact sameResult_refer key d.nullable _ _ as fun t t' ht ht' =>
        Except.ok.inj (ht.symm.trans ht')

theorem Oblivious.dispatch_succ (h : gen.Oblivious)
    (hb : ∀ d as, SameResult (gen.build g n d as) (gen.build g m d as))
    (hd : ∀ d as, SameResult (gen.dispatch g n d as) (gen.dispatch g m d as)) (d : Descriptor N)
    (as : Annotations) :
    SameResult (gen.dispatch g (n + 1) d as) (gen.dispatch g (m + 1) d as) := by
  rw [dispatch, dispatch]
  cases hs : gen.strategy? d.kind with
  | none => exact Agrees.throw_left _
  | some strategy => exact h d.kind strategy hs _ _ rfl ⟨rfl, rfl, rfl, hb, hd⟩

/-- Two builds of one descriptor agree, from whatever registries, and so do two encodings. -/
theorem Oblivious.sameResult (h : gen.Oblivious) (g : Graph N) (n m : Nat) :
    (∀ d as, SameResult (gen.build g n d as) (gen.build g m d as)) ∧
      ∀ d as, SameResult (gen.dispatch g n d as) (gen.dispatch g m d as) := by
  have hbuild : ∀ d as, gen.build g 0 d as = throw .outOfFuel := fun d as => by rw [build]
  have hdispatch : ∀ d as, gen.dispatch g 0 d as = throw .outOfFuel := fun d as => by
    rw [dispatch]
  induction n generalizing m with
  | zero =>
    refine ⟨fun d as => ?_, fun d as => ?_⟩
    · rw [hbuild d as]; exact Agrees.throw_left _
    · rw [hdispatch d as]; exact Agrees.throw_left _
  | succ n ih =>
    cases m with
    | zero =>
      refine ⟨fun d as => ?_, fun d as => ?_⟩
      · rw [hbuild d as]; exact Agrees.throw_right _
      · rw [hdispatch d as]; exact Agrees.throw_right _
    | succ m =>
      obtain ⟨hb, hd⟩ := ih m
      exact ⟨sameResult_build_succ hb hd, h.dispatch_succ hb hd⟩

end Generator

/-! ## The strategies of the kinds -/

section

variable {c c' : Context N}

theorem Context.Alike.elementFragment (h : c.Alike c') (e : Element N) :
    SameResult (c.elementFragment e) (c'.elementFragment e) := by
  unfold Context.elementFragment
  rw [h.graph]
  exact h.build _ _

theorem obliviousOn_primitive (p : Primitive) :
    ObliviousOn (.primitive p) (Encoding.primitive (N := N)) := by
  intro c c' hk h
  have hk' : c'.descriptor.kind = .primitive p := h.descriptor ▸ hk
  rw [encode_primitive c hk, encode_primitive c' hk', h.descriptor, h.annotations]
  exact .ofExcept_self _

theorem obliviousOn_enumeration : ObliviousOn .enumeration (Encoding.enumeration (N := N)) := by
  intro c c' hk h
  have hk' : c'.descriptor.kind = .enumeration := h.descriptor ▸ hk
  rw [encode_enumeration c hk, encode_enumeration c' hk', h.descriptor, h.annotations]
  exact .ofExcept_self _

theorem obliviousOn_record : ObliviousOn .record (Encoding.record (N := N)) := by
  intro c c' hk h
  have hk' : c'.descriptor.kind = .record := h.descriptor ▸ hk
  rw [encode_record c hk [], encode_record c' hk' [], h.descriptor, h.annotations]
  exact (Agrees.mapM h.elementFragment _).bind fun _ => .ofExcept_self _

theorem obliviousOn_list : ObliviousOn .list (Encoding.list (N := N)) := by
  intro c c' hk h
  have hk' : c'.descriptor.kind = .list := h.descriptor ▸ hk
  rw [encode_list c hk [], encode_list c' hk' [], h.descriptor, h.annotations]
  exact (Agrees.ofExcept_self _).bind fun item => (h.elementFragment item).bind fun _ =>
    .ofExcept_self _

theorem obliviousOn_map : ObliviousOn .map (Encoding.map (N := N)) := by
  intro c c' hk h
  have hk' : c'.descriptor.kind = .map := h.descriptor ▸ hk
  rw [encode_map c hk [], encode_map c' hk' [], h.descriptor, h.annotations, h.graph]
  have hvalue : SameResult (Build.ofExcept (c'.descriptor.stringKeyedValue c'.graph c.fuel))
      (Build.ofExcept (c'.descriptor.stringKeyedValue c'.graph c'.fuel)) :=
    .ofExcept fun _ _ => stringKeyedValue_unique
  exact hvalue.bind fun value => (h.elementFragment value).bind fun _ => .ofExcept_self _

theorem obliviousOn_polymorphic (k : Hierarchy) :
    ObliviousOn (.polymorphic k) (Encoding.polymorphic (N := N)) := by
  intro c c' hk h
  have hk' : c'.descriptor.kind = .polymorphic k := h.descriptor ▸ hk
  cases hes : c.descriptor.elements.isEmpty with
  | true =>
    rw [encode_polymorphic_empty c hes]
    exact Agrees.throw_left _
  | false =>
    rw [encode_polymorphic c hk hes, encode_polymorphic c' hk' (h.descriptor ▸ hes),
      h.descriptor, h.annotations, h.graph]
    exact (Agrees.mapM (fun e => h.build _ _) _).bind fun _ => .ofExcept_self _

/-- A keyword that is written in some cases only, before the others. -/
theorem sameDraft_unless {b : Bool} {w : Write Bool} {k : Write Unit} (hw : SameDraft w w)
    (hk : SameDraft k k) :
    SameDraft (if b then k else w >>= fun _ => k) (if b then k else w >>= fun _ => k) := by
  cases b with
  | true => exact hk
  | false => exact hw.bind fun _ => hk

/-- The bounds of the kind are written beside the same fragment. -/
theorem obliviousOn_boundedPrimitive (p : Primitive) :
    ObliviousOn (.primitive p) (Encoding.boundedPrimitive (N := N)) := by
  intro c c' hk h
  have hplain := obliviousOn_primitive p c c' hk h
  obtain ⟨g, d, as, fuel, build, dispatch⟩ := c
  obtain ⟨g', d', as', fuel', build', dispatch'⟩ := c'
  obtain ⟨rfl, rfl, rfl, _, _⟩ := h
  unfold Encoding.boundedPrimitive
  refine hplain.bind fun fragment => Agrees.compose ?_ fragment
  have hput : ∀ keyword value, SameDraft (putIfPresent keyword value) _ := Agrees.putIfPresent
  refine sameDraft_unless (hput _ _) (sameDraft_unless (hput _ _) ?_)
  exact sameDraft_unless (hput _ _) (sameDraft_unless (hput _ _) (Agrees.pure ()))

end

/-- With the default strategies beside it, one for primitives decides alone. -/
theorem Generator.oblivious_of_primitive {strategy : Strategy N}
    (h : ∀ p, ObliviousOn (.primitive p) strategy) :
    ({ primitive := strategy } : Generator N).Oblivious := by
  intro k strategy' hs
  cases k with
  | primitive p => cases hs; exact h p
  | enumeration => cases hs; exact obliviousOn_enumeration
  | record => cases hs; exact obliviousOn_record
  | list => cases hs; exact obliviousOn_list
  | map => cases hs; exact obliviousOn_map
  | polymorphic k => cases hs; exact obliviousOn_polymorphic k
  | contextual => cases hs; exact fun c c' _ _ => Agrees.throw_left _
  | marker => cases hs; exact fun c c' _ _ => Agrees.pure _
  | wrapper => cases hs

theorem Generator.oblivious_default : ({} : Generator N).Oblivious :=
  oblivious_of_primitive obliviousOn_primitive

theorem Generator.oblivious_bounded :
    ({ primitive := Encoding.boundedPrimitive } : Generator N).Oblivious :=
  oblivious_of_primitive obliviousOn_boundedPrimitive

/-- Two builds of one descriptor under the same annotations that succeed give one fragment,
whatever was registered before either of them. -/
theorem fragment_eq_of_builds {gen : Generator N}
    (hgen : gen = {} ∨ gen = { primitive := Encoding.boundedPrimitive }) (g : Graph N)
    (d : Descriptor N) (inherited : Annotations) {n m : Nat} {r₁ r₂ r₁' r₂' : Registry}
    {f₁ f₂ : Object} (h₁ : gen.build g n d inherited r₁ = .ok f₁ r₁')
    (h₂ : gen.build g m d inherited r₂ = .ok f₂ r₂') : f₁ = f₂ := by
  have hoblivious : gen.Oblivious := by
    rcases hgen with rfl | rfl
    · exact Generator.oblivious_default
    · exact Generator.oblivious_bounded
  have hsame := (hoblivious.sameResult g n m).1 d inherited
  exact (hsame r₁ r₂ trivial f₁ r₁' f₂ r₂' h₁ h₂).1

/-- A link built on nothing, which defines itself on the way, and a link built where something
else holds its key. -/
theorem fragment_eq_link :
    ∃ f₁ f₂ r₁ r₂, ({} : Generator Unit).build linkGraph 3 link [] {} = .ok f₁ r₁ ∧
      ({} : Generator Unit).build linkGraph 1 link []
        (({} : Registry).insert "Link" (.ready (pointer "Other"))) = .ok f₂ r₂ ∧ f₁ = f₂ := by
  obtain ⟨f₁, r₁, h₁⟩ : ∃ f₁ r₁,
      ({} : Generator Unit).build linkGraph 3 link [] {} = .ok f₁ r₁ := ⟨_, _, rfl⟩
  obtain ⟨f₂, r₂, h₂⟩ : ∃ f₂ r₂, ({} : Generator Unit).build linkGraph 1 link []
      (({} : Registry).insert "Link" (.ready (pointer "Other"))) = .ok f₂ r₂ := ⟨_, _, rfl⟩
  exact ⟨f₁, f₂, r₁, r₂, h₁, h₂, fragment_eq_of_builds (.inl rfl) linkGraph link [] h₁ h₂⟩

end TypeSchema
