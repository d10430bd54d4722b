/-
  What the place of use adds to a fragment built in place.

  A use may pass further annotations on, and be nullable where the type is not. Built in place,
  this gives the same as writing the annotations over the fragment of the bare use, made nullable
  (`Inline.relax`): the law that lets a definition be shared. It needs that no double bound is
  among the annotations of the place, as an integer bound of the type would be written before it,
  and that a marker is not documented there, as its fragment takes nothing up.
-/
import TypeSchema.Proofs.Inline
import TypeSchema.Proofs.Nullify

namespace TypeSchema

variable {N : Type} {g : Graph N}

/-- The kind of the value inside all wrappers. -/
inductive InnerKind (g : Graph N) : Descriptor N → Kind → Prop
  | base {d} : d.kind ≠ .wrapper → InnerKind g d d.kind
  | wrapper {d value k} : d.kind = .wrapper → d.elements = [value] →
    InnerKind g (value.child g) k → InnerKind g d k

/-- No bound is given as a double. -/
def Annotations.DoubleFree (as : Annotations) : Prop := ∀ t x, .boundDouble t x ∉ as

/-- Neither title nor description nor comment is given. -/
def Annotations.Undocumented (as : Annotations) : Prop :=
  ∀ t ∈ [TextTag.comment, .title, .description], as.text? t = none

/-- `d` is `c` under any name, and nullable besides if `b` says so. -/
structure Relaxes (b : Bool) (c d : Descriptor N) : Prop where
  kind : d.kind = c.kind
  annotations : d.annotations = c.annotations
  elements : d.elements = c.elements
  nullable : d.nullable = (c.nullable || b)

/-! ## Annotations of two places -/

namespace Annotations

theorem DoubleFree.boundDouble? {as : Annotations} (h : as.DoubleFree) (t : Bound) :
    as.boundDouble? t = none := by
  refine List.findSome?_eq_none_iff.mpr fun a ha => ?_
  cases a with
  | boundDouble t' x => exact absurd ha (h t' x)
  | _ => rfl

theorem text?_append (as bs : Annotations) (t : TextTag) :
    (as ++ bs).text? t = (as.text? t).or (bs.text? t) := List.findSome?_append

theorem length?_append (as bs : Annotations) (t : LengthTag) :
    (as ++ bs).length? t = (as.length? t).or (bs.length? t) := List.findSome?_append

theorem bound?_append (as bs : Annotations) (t : Bound) :
    (as ++ bs).bound? t = (as.bound? t).or (bs.bound? t) := List.findSome?_append

theorem boundDouble?_append_or (as bs : Annotations) (t : Bound) :
    (as ++ bs).boundDouble? t = (as.boundDouble? t).or (bs.boundDouble? t) :=
  List.findSome?_append

theorem boundDouble?_append {as : Annotations} (h : as.DoubleFree) (bs : Annotations)
    (t : Bound) : (as ++ bs).boundDouble? t = bs.boundDouble? t := by
  rw [boundDouble?_append_or, h.boundDouble? t, Option.none_or]

/-- The nearer place counts first, for every keyword. -/
theorem value?_append {as : Annotations} (h : as.DoubleFree) (bs : Annotations)
    (k : SiteKeyword) : (as ++ bs).value? k = (as.value? k).or (bs.value? k) := by
  cases k with
  | text t => simp only [value?, text?_append, Option.map_or]
  | length t => simp only [value?, length?_append, Option.map_or]
  | bound t =>
    simp only [value?, bound?_append, boundDouble?_append h, h.boundDouble? t, Option.map_or,
      Option.map_none, Option.or_none, Option.or_assoc]

theorem write_append_left {as : Annotations} (h : as.DoubleFree) (bs : Annotations)
    (ks : List SiteKeyword) {s : Object} (hs : s.Ordered) :
    (as ++ bs).write ks s = as.write ks (bs.write ks s) := by
  have hbs := bs.ordered_write ks hs
  refine Table.ext_of_ordered (ordered_write _ ks hs) (as.ordered_write ks hbs) fun n => ?_
  by_cases hn : ∃ k ∈ ks, k.name = n
  · obtain ⟨k, hk, rfl⟩ := hn
    rw [get?_write_of_mem _ _ hk, get?_write_of_mem _ _ hk, get?_write_of_mem _ _ hk,
      value?_append h, Option.or_assoc]
  · have hne : ∀ k ∈ ks, k.name ≠ n := fun k hk hname => hn ⟨k, hk, hname⟩
    rw [get?_write_of_not_mem _ _ hne, get?_write_of_not_mem _ _ hne,
      get?_write_of_not_mem _ _ hne]

theorem check_of_cons {as : Annotations} {k : SiteKeyword} {ks : List SiteKeyword}
    (h : as.check (k :: ks) = .ok ()) : as.check ks = .ok () := by
  cases k with
  | text t => exact h
  | length t => exact h
  | bound t =>
    unfold check at h
    split at h
    · split at h
      · exact h
      · cases h
    · exact h

/-- An integer bound in front takes the place of a double one, finite or not. -/
theorem check_append {as bs : Annotations} (h : as.DoubleFree) {ks : List SiteKeyword}
    (hbs : bs.check ks = .ok ()) : (as ++ bs).check ks = .ok () := by
  induction ks with
  | nil => rfl
  | cons k ks ih =>
    have hks := ih (check_of_cons hbs)
    cases k with
    | text t => exact hks
    | length t => exact hks
    | bound t =>
      simp only [check, bound?_append, boundDouble?_append h] at hbs ⊢
      cases as.bound? t with
      | some i => exact hks
      | none =>
        rw [Option.none_or]
        split
        · next x hint hdouble =>
          rw [hint, hdouble] at hbs
          split
          · exact hks
          · next hx => simp [hx] at hbs
        · exact hks

end Annotations

theorem Annotations.Undocumented.value?_eq_none {as : Annotations} (h : as.Undocumented) :
    ∀ k ∈ Kind.marker.siteKeywords, as.value? k = none := by
  have hmap : ∀ t, as.text? t = none → as.value? (.text t) = none := by
    intro t ht
    change (as.text? t).map Json.string = none
    rw [ht]
    rfl
  intro k hk
  rcases List.mem_cons.mp hk with rfl | hk
  · exact hmap .comment (h _ (by decide))
  · rcases List.mem_cons.mp hk with rfl | hk
    · exact hmap .title (h _ (by decide))
    · obtain rfl := List.mem_singleton.mp hk
      exact hmap .description (h _ (by decide))

theorem Kind.ownKeywords_of_ne_marker {k : Kind} (h : k ≠ .marker) :
    k.ownKeywords = k.siteKeywords := by
  cases k with
  | marker => exact absurd rfl h
  | _ => rfl

/-! ## The kind inside -/

theorem InnerKind.of_outline {d d' : Descriptor N} {k : Kind} (h : d.outline = d'.outline)
    (hd : InnerKind g d k) : InnerKind g d' k := by
  have hkind := Descriptor.kind_eq_of_outline h
  cases hd with
  | base hk =>
    rw [hkind]
    exact .base (hkind ▸ hk)
  | wrapper hk hes hv =>
    obtain ⟨e', he', hbare⟩ := Descriptor.elements_eq_singleton h hes
    refine .wrapper (hkind ▸ hk) he' ?_
    rw [Element.child_eq_of_bare g hbare]
    exact hv

theorem InnerKind.eq_kind {d : Descriptor N} {k : Kind} (h : InnerKind g d k)
    (hk : d.kind ≠ .wrapper) : k = d.kind := by
  cases h with
  | base _ => rfl
  | wrapper hw _ _ => exact absurd hw hk

theorem InnerKind.of_wrapper {d : Descriptor N} {k : Kind} {value : Element N}
    (h : InnerKind g d k) (hk : d.kind = .wrapper) (hes : d.elements = [value]) :
    InnerKind g (value.child g) k := by
  cases h with
  | base hw => exact absurd hk hw
  | wrapper _ hes' hv =>
    obtain rfl := List.singleton_inj.mp (hes.symm.trans hes')
    exact hv

theorem InnerKind.of_not_wrapper {d : Descriptor N} (h : ¬ d.isWrapper = true) :
    InnerKind g d d.kind :=
  .base fun hk => h (Descriptor.isWrapper_iff.mpr hk)

theorem InnerKind.of_wrapped {d : Descriptor N} {value : Element N} {k : Kind}
    (h : d.isWrapper = true) (hv : d.wrapped = .ok value) (hk : InnerKind g (value.child g) k) :
    InnerKind g d k :=
  .wrapper (Descriptor.isWrapper_iff.mp h) (Use.wrapped_eq_ok.mp hv) hk

theorem innerKind_of_innermost {n : Nat} {d t : Descriptor N} (h : d.innermost g n = .ok t) :
    InnerKind g d t.kind := by
  induction n generalizing d with
  | zero =>
    unfold Descriptor.innermost at h
    split at h
    · cases h
    · next hw =>
      cases h
      exact .of_not_wrapper hw
  | succ n ih =>
    unfold Descriptor.innermost at h
    split at h
    · next hw =>
      split at h
      · next value hv => exact .of_wrapped hw hv (ih h)
      · cases h
    · next hw =>
      cases h
      exact .of_not_wrapper hw

theorem innerKind_of_target {n : Nat} {u : Use N} {t : Descriptor N}
    (h : u.target g n = .ok t) : InnerKind g u.descriptor t.kind := by
  unfold Use.target at h
  split at h
  · next hw =>
    obtain ⟨value, hv, h⟩ := except_bind_eq_ok.mp h
    rw [except_mapError_eq_ok] at hv
    exact .of_wrapped hw hv (innerKind_of_innermost h)
  · next hw =>
    cases h
    exact .of_not_wrapper hw

theorem InnerKind.withoutRefs {d : Descriptor N} {k : Kind} (h : InnerKind g d k) :
    InnerKind g.withoutRefs d.withoutRefs k := by
  induction h with
  | @base d hk => exact .base (d := d.withoutRefs) hk
  | @wrapper d value k hk hes _ ih =>
    exact .wrapper hk (Descriptor.elements_withoutRefs_of_singleton hes) ih

/-! ## More annotations, or `null` besides -/

theorem Relaxes.passNullable {b : Bool} {c d : Descriptor N} (h : Relaxes b c d)
    (x : Descriptor N) : Relaxes b (c.passNullable x) (d.passNullable x) := by
  have hann := x.annotations_intoNullable
  have hes := x.elements_intoNullable
  have hkind := Descriptor.kind_eq_of_outline x.outline_intoNullable
  have hnull := x.nullable_intoNullable
  unfold Descriptor.passNullable
  rw [h.nullable]
  cases c.nullable with
  | true => exact ⟨rfl, rfl, rfl, by simp [hnull]⟩
  | false =>
    cases b with
    | true => exact ⟨hkind, hann, hes, by simp [hnull]⟩
    | false => exact ⟨rfl, rfl, rfl, by simp⟩

namespace Relaxes

variable {b : Bool} {u : Use N} {d : Descriptor N} {us : List (Use N)}

/-- Apart from the value inside a wrapper, other annotations and nullability leave the parts as
they are. -/
theorem parts (h : Relaxes b u.descriptor d) (hk : u.descriptor.kind ≠ .wrapper)
    (as : Annotations) {n : Nat} (hp : u.parts g n = .ok us) :
    Use.parts g n ⟨d, as⟩ = .ok us := by
  rw [parts_eq_ok_iff] at hp ⊢
  obtain ⟨hparts, henc⟩ := hp
  refine ⟨?_, fun hkd key value hes => ?_, fun k hkd => ?_⟩
  · have hes := h.elements
    cases hparts with
    | primitive p hk => exact .primitive p (h.kind.trans hk)
    | enumeration hk => exact .enumeration (h.kind.trans hk)
    | marker hk => exact .marker (h.kind.trans hk)
    | record hk =>
      rw [← hes]
      exact .record (u := ⟨d, as⟩) (h.kind.trans hk)
    | list item hk he => exact .list item (h.kind.trans hk) (hes.trans he)
    | map key value hk he => exact .map key value (h.kind.trans hk) (hes.trans he)
    | polymorphic k hk =>
      rw [← hes]
      exact .polymorphic (u := ⟨d, as⟩) k (h.kind.trans hk)
    | wrapper value hkw _ => exact absurd hkw hk
  · exact henc.key (h.kind.symm.trans hkd) key value (h.elements.symm.trans hes)
  · rw [h.elements]
    exact henc.variants k (h.kind.symm.trans hkd)

/-- What is passed on to a wrapper is passed on to the value inside. -/
theorem parts_of_wrapper (h : Relaxes b u.descriptor d) (as : Annotations) {value : Element N}
    (hk : u.descriptor.kind = .wrapper) (hes : u.descriptor.elements = [value]) (n : Nat) :
    Use.parts g n ⟨d, as ++ u.inherited⟩ =
      .ok [⟨d.passNullable (value.child g), as ++ (u.inner g value).inherited⟩] := by
  have hinner : (⟨d, as ++ u.inherited⟩ : Use N).inner g value =
      ⟨d.passNullable (value.child g), as ++ (u.inner g value).inherited⟩ := by
    unfold Use.inner
    dsimp only
    rw [h.annotations, List.append_assoc, List.append_assoc, List.append_assoc]
  rw [← hinner]
  exact Use.parts_of_wrapper (h.kind.trans hk) (h.elements.trans hes) n

theorem shape (h : Relaxes b u.descriptor d) {fs : List Object} (hp : Parts g u us)
    (hlen : us.length = fs.length) (hk : u.descriptor.kind ≠ .wrapper) :
    d.shape us fs = if b then nullify (u.descriptor.shape us fs)
      else u.descriptor.shape us fs := by
  have hnullable := h.nullable
  cases b with
  | true =>
    rw [Bool.or_true] at hnullable
    exact (nullify_shape hp hlen hk h.kind h.elements hnullable).symm
  | false =>
    rw [Bool.or_false] at hnullable
    exact Descriptor.shape_congr h.kind h.elements hnullable us fs

/-- Finishing with further annotations is writing them over the finished fragment. -/
theorem finish (h : Relaxes b u.descriptor d) {fs : List Object} {f : Object}
    (hp : Parts g u us) (hlen : us.length = fs.length) (hk : u.descriptor.kind ≠ .wrapper)
    {as : Annotations} (has : as.DoubleFree)
    (hmarker : u.descriptor.kind = .marker → as.Undocumented) (hf : u.finish us fs = .ok f) :
    Use.finish ⟨d, as ++ u.inherited⟩ us fs =
      .ok (as.write u.descriptor.kind.siteKeywords (if b then nullify f else f)) := by
  rw [Use.finish_eq_descriptor hk, Descriptor.finish_eq_ok] at hf
  obtain ⟨hcheck, rfl⟩ := hf
  have hkd : d.kind ≠ .wrapper := by
    rw [h.kind]
    exact hk
  have hordered := u.descriptor.ordered_shape us fs
  have hnullify : ∀ own : Annotations, ∀ ks, (if b then
      nullify (own.write ks (u.descriptor.shape us fs)) else
        own.write ks (u.descriptor.shape us fs)) = own.write ks (d.shape us fs) := by
    intro own ks
    rw [h.shape hp hlen hk]
    split
    · exact nullify_write own ks hordered
    · rfl
  rw [Use.finish_eq_descriptor hkd, Descriptor.finish_eq_ok, hnullify]
  dsimp only
  rw [h.kind, h.annotations, List.append_assoc]
  refine ⟨Annotations.check_append has hcheck, ?_⟩
  by_cases hm : u.descriptor.kind = .marker
  · -- a marker takes nothing up, so there must be nothing to write
    rw [hm, as.write_eq_self _ (hmarker hm).value?_eq_none]
    rfl
  · rw [Kind.ownKeywords_of_ne_marker hm]
    exact (Annotations.write_append_left has _ _ (d.ordered_shape us fs)).symm

end Relaxes

/-! ## The law -/

namespace Inline

variable {u : Use N} {f : Object} {b : Bool} {as : Annotations}

/-- What holds of all types that are built in place, and carries over from the value inside to its
wrapper, holds of all uses that are built in place. -/
theorem induct_inner {P : Use N → Object → Prop}
    (hbase : ∀ {u us fs f n}, u.descriptor.kind ≠ .wrapper → u.parts g n = .ok us →
      Inline g us fs → u.finish us fs = .ok f → P u f)
    (hwrapper : ∀ {u value f}, u.descriptor.kind = .wrapper → u.descriptor.elements = [value] →
      P (u.inner g value) f → P u f) (h : Inline g [u] [f]) : P u f := by
  have hall : ∀ {us fs}, Inline g us fs → ∀ p ∈ us.zip fs, P p.1 p.2 := by
    intro us fs h
    induction h with
    | nil => exact fun p hp => (List.not_mem_nil hp).elim
    | @cons u us vs fs gs f n hp hus hf _ ihus ihvs =>
      refine List.forall_mem_cons.mpr ⟨?_, ihvs⟩
      by_cases hw : u.descriptor.kind = .wrapper
      · obtain ⟨value, hes, rfl⟩ := (Parts.of_parts hp).of_wrapper hw
        obtain ⟨f', rfl⟩ := List.length_eq_one_iff.mp hus.length_eq.symm
        obtain rfl := Use.finish_wrapper hw hf
        exact hwrapper hw hes (ihus _ (List.mem_singleton_self _))
      · exact hbase hw hp hus hf
  exact hall h (u, f) (List.mem_singleton_self _)

/-- A wrapper that relaxes another one is built in place from the value inside, relaxed. -/
theorem of_inner {d : Descriptor N} {value : Element N} (hd : Relaxes b u.descriptor d)
    (hk : u.descriptor.kind = .wrapper) (hes : u.descriptor.elements = [value])
    (h : Inline g [⟨d.passNullable (value.child g), as ++ (u.inner g value).inherited⟩] [f]) :
    Inline g [⟨d, as ++ u.inherited⟩] [f] :=
  .cons 0 (hd.parts_of_wrapper as hk hes 0) h
    (Use.finish_of_wrapper (hd.kind.trans hk) _ _) .nil

/-- Building a use in place that passes more annotations on, or is nullable besides. -/
theorem relax {d : Descriptor N} {k : Kind} (h : Inline g [u] [f])
    (hd : Relaxes b u.descriptor d) (has : as.DoubleFree) (hk : InnerKind g u.descriptor k)
    (hmarker : k = .marker → as.Undocumented) : Inline g [⟨d, as ++ u.inherited⟩]
      [as.write k.siteKeywords (if b then nullify f else f)] := by
  refine induct_inner (P := fun u f => InnerKind g u.descriptor k → ∀ {d},
    Relaxes b u.descriptor d → Inline g [⟨d, as ++ u.inherited⟩]
      [as.write k.siteKeywords (if b then nullify f else f)]) ?_ ?_ h hk hd
  · intro u us fs f n hw hp hus hf hk d hd
    obtain rfl := hk.eq_kind hw
    have hfinish := hd.finish (Parts.of_parts hp) hus.length_eq hw has hmarker hf
    exact .cons n (hd.parts hw _ hp) hus hfinish .nil
  · intro u value f hw hes ih hk d hd
    have hinner : InnerKind g (u.inner g value).descriptor k :=
      (hk.of_wrapper hw hes).of_outline (Descriptor.outline_passNullable _ _).symm
    exact .of_inner hd hw hes (ih hinner (hd.passNullable _))

end Inline

end TypeSchema
