/-
  Fuel only bounds how long a build may take.

  `Extends x y` says that `y` gives every answer that `x` gives. Each step of the generator keeps
  it, so a build that did not run out of fuel gives the same answer with more (`build_mono`).
-/
import TypeSchema.Proofs.Use

namespace TypeSchema

variable {N : Type} {α β σ : Type}

/-- `y` does what `x` does wherever `x` does not run out of fuel. -/
def Extends (x y : EStateM Failure σ α) : Prop :=
  ∀ s, (∃ s', x s = .error .outOfFuel s') ∨ x s = y s

namespace Extends

theorem refl (x : EStateM Failure σ α) : Extends x x := fun _ => Or.inr rfl

theorem trans {x y z : EStateM Failure σ α} (h : Extends x y) (h' : Extends y z) :
    Extends x z := by
  intro s
  rcases h s with hx | hx
  · exact Or.inl hx
  · rcases h' s with hy | hy
    · exact Or.inl (hx ▸ hy)
    · exact Or.inr (hx.trans hy)

theorem of_throw (y : EStateM Failure σ α) : Extends (throw .outOfFuel) y :=
  fun s => Or.inl ⟨s, rfl⟩

theorem bind {x y : EStateM Failure σ α} {k l : α → EStateM Failure σ β} (h : Extends x y)
    (hk : ∀ a, Extends (k a) (l a)) : Extends (x >>= k) (y >>= l) := by
  intro s
  rw [bind_run, bind_run]
  rcases h s with ⟨s', hx⟩ | hx
  · exact Or.inl ⟨s', by rw [hx]⟩
  · rw [← hx]
    cases x s with
    | ok a s' => exact hk a s'
    | error e s' => exact Or.inr rfl

theorem mapM {b b' : α → EStateM Failure σ β} (h : ∀ a, Extends (b a) (b' a)) (as : List α) :
    Extends (as.mapM b) (as.mapM b') := by
  induction as with
  | nil => exact refl _
  | cons a as ih =>
    rw [List.mapM_cons, List.mapM_cons]
    exact (h a).bind fun _ => ih.bind fun _ => refl _

theorem ofExcept {x y : Except Failure α} (h : x = .error .outOfFuel ∨ x = y) :
    Extends (Build.ofExcept x) (Build.ofExcept y) := by
  rcases h with rfl | rfl
  · exact of_throw _
  · exact refl _

theorem request {b b' : Build Object} (h : Extends b b') (key : String) (nullable : Bool) :
    Extends (TypeSchema.request key nullable (some b))
      (TypeSchema.request key nullable (some b')) := by
  intro r
  by_cases hc : r.contains key = true
  · exact Or.inr (by rw [request_known hc, request_known hc])
  · have hc' : r.contains key = false := by simpa using hc
    rw [request_unknown_some hc', request_unknown_some hc']
    rcases h (r.insert key .pending) with ⟨r', hb⟩ | hb
    · exact Or.inl ⟨r', by rw [hb]⟩
    · exact Or.inr (by rw [hb])

end Extends

theorem innermost_succ (g : Graph N) (n : Nat) (d : Descriptor N) :
    d.innermost g n = .error .outOfFuel ∨ d.innermost g n = d.innermost g (n + 1) := by
  induction n generalizing d with
  | zero =>
    by_cases hw : d.isWrapper = true
    · exact Or.inl (by rw [Descriptor.innermost, if_pos hw])
    · exact Or.inr (by rw [Descriptor.innermost, Descriptor.innermost, if_neg hw, if_neg hw])
  | succ n ih =>
    rw [Descriptor.innermost, Descriptor.innermost]
    by_cases hw : d.isWrapper = true
    · rw [if_pos hw, if_pos hw]
      cases d.wrapped with
      | error e => exact Or.inr rfl
      | ok value => exact ih (value.child g)
    · exact Or.inr (by rw [if_neg hw, if_neg hw])

namespace Use

variable (g : Graph N)

theorem parts_succ (n : Nat) (u : Use N) :
    u.parts g n = .error .outOfFuel ∨ u.parts g n = u.parts g (n + 1) := by
  unfold parts
  by_cases hw : u.descriptor.isWrapper = true
  · exact Or.inr (by rw [if_pos hw, if_pos hw])
  · rw [if_neg hw, if_neg hw]
    unfold Descriptor.parts
    split
    all_goals first
      | exact Or.inr rfl
      | skip
    unfold Descriptor.stringKeyedValue
    cases u.descriptor.mapEntries with
    | error e => exact Or.inr rfl
    | ok entries =>
      rcases innermost_succ g n (entries.1.child g) with h | h
      · left
        change Except.map _ ((entries.1.child g).innermost g n >>= _) = _
        rw [h]; rfl
      · right
        change Except.map _ ((entries.1.child g).innermost g n >>= _) = _
        rw [h]; rfl

theorem pointer_succ (n : Nat) (u : Use N) (key : String) :
    u.pointer g n key = .error .outOfFuel ∨ u.pointer g n key = u.pointer g (n + 1) key := by
  unfold pointer target
  by_cases hw : u.descriptor.isWrapper = true
  · rw [if_pos hw, if_pos hw]
    cases u.descriptor.wrapped with
    | error e => exact Or.inr rfl
    | ok value =>
      rcases innermost_succ g n (value.child g) with h | h
      · left
        change ((value.child g).innermost g n >>= _) = _
        rw [h]; rfl
      · right
        change ((value.child g).innermost g n >>= _) = _
        rw [h]; rfl
  · rw [if_neg hw, if_neg hw]
    exact Or.inr rfl

theorem assemble_succ {n : Nat} (ih : ∀ u : Use N, Extends (u.build g n) (u.build g (n + 1)))
    (u : Use N) : Extends (u.assemble g n) (u.assemble g (n + 1)) :=
  (Extends.ofExcept (parts_succ g n u)).bind fun us =>
    (Extends.mapM ih us).bind fun _ => Extends.refl _

/-- In place, everything but a wrapper takes one unit of fuel. -/
theorem inPlace_succ (n : Nat) {u : Use N} (hw : u.descriptor.isWrapper = false) :
    u.inPlace g (n + 1) = u.assemble g n := by
  unfold inPlace assemble parts finish
  simp only [hw, Bool.false_eq_true, if_false]
  exact dispatch_run g n _ _

theorem inPlace_zero {u : Use N} (hw : u.descriptor.isWrapper = false) :
    u.inPlace g 0 = throw .outOfFuel := by
  unfold inPlace
  rw [hw, if_neg Bool.false_ne_true, Generator.dispatch]

/-- A build in place puts the parts together, if its fuel reaches that far. -/
theorem inPlace_eq (n : Nat) (u : Use N) :
    u.inPlace g n = throw .outOfFuel ∨ ∃ m ≤ n, u.inPlace g n = u.assemble g m := by
  by_cases hw : u.descriptor.isWrapper = true
  · refine Or.inr ⟨n, Nat.le_refl n, ?_⟩
    unfold inPlace
    rw [if_pos hw]
  · have hw' : u.descriptor.isWrapper = false := by simpa using hw
    cases n with
    | zero => exact Or.inl (inPlace_zero g hw')
    | succ n => exact Or.inr ⟨n, Nat.le_succ n, inPlace_succ g n hw'⟩

theorem inPlace_extends {n : Nat}
    (ih : ∀ m ≤ n, ∀ u : Use N, Extends (u.build g m) (u.build g (m + 1))) (u : Use N) :
    Extends (u.inPlace g n) (u.inPlace g (n + 1)) := by
  by_cases hw : u.descriptor.isWrapper = true
  · unfold inPlace
    rw [if_pos hw, if_pos hw]
    exact assemble_succ g (ih n (Nat.le_refl n)) u
  · have hw' : u.descriptor.isWrapper = false := by simpa using hw
    cases n with
    | zero => rw [inPlace_zero g hw']; exact Extends.of_throw _
    | succ n =>
      rw [inPlace_succ g n hw', inPlace_succ g (n + 1) hw']
      exact assemble_succ g (ih n (Nat.le_succ n)) u

theorem build_succ (n : Nat) (u : Use N) : Extends (u.build g n) (u.build g (n + 1)) := by
  induction n using Nat.strongRecOn generalizing u with
  | ind n ih =>
    cases n with
    | zero => rw [build_zero]; exact Extends.of_throw _
    | succ n =>
      have hplace := inPlace_extends g (n := n) fun m hm u => ih m (by omega) u
      cases hk : u.key? with
      | none =>
        rw [build_unkeyed g n hk, build_unkeyed g (n + 1) hk]
        exact hplace u
      | some key =>
        rw [build_keyed g n hk, build_keyed g (n + 1) hk]
        exact (Extends.refl _).bind fun _ => ((hplace u.definition).request key _).bind fun _ =>
          Extends.ofExcept (pointer_succ g n u key)

theorem build_le {n m : Nat} (h : n ≤ m) (u : Use N) : Extends (u.build g n) (u.build g m) := by
  induction h with
  | refl => exact Extends.refl _
  | step _ ih => exact ih.trans (build_succ g _ u)

/-- A build that did not run out of fuel gives the same answer with more. -/
theorem build_mono {n m : Nat} (h : n ≤ m) {u : Use N} {r : Registry}
    (hr : ∀ r', u.build g n r ≠ .error .outOfFuel r') : u.build g m r = u.build g n r := by
  rcases build_le g h u r with ⟨r', hb⟩ | hb
  · exact absurd hb (hr r')
  · exact hb.symm

end Use

end TypeSchema
