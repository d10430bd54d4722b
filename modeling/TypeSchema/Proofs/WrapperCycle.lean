/-
  Wrappers that stand inside themselves.

  Looking through wrappers goes from one to the value inside and asks no registry on the way. So a
  request for a definition, which cuts a cycle for the build, does not cut it here. On a finite
  graph, looking through the wrappers of a descriptor, or of the key of a map, ends unless they lead
  into a cycle of wrappers (`unwrapping_ends_iff`). If they do, no build of the descriptor ends
  either (`build_of_endless`), and that a definition is asked for on the cycle is no help
  (`endless_although_cut`).
-/
import TypeSchema.Proofs.Defects

namespace TypeSchema

variable {N : Type} {g : Graph N}

/-- The wrappers of the descriptor lead into a cycle of wrappers. -/
def Endless (g : Graph N) (x : Descriptor N) : Prop :=
  ∃ w, LooksTo g x w ∧ Relation.TransGen (Holds g) w w

/-- Finitely many descriptors, where each cycle is cut by a request for a definition. -/
structure CyclesCut (g : Graph N) (d : Descriptor N) : Prop where
  finite : {x | Reaches g d x}.Finite
  cut : ∀ x, Reaches g d x → ¬ Relation.TransGen (UncutChild g) x x

/-! ## One wrapper -/

theorem holds_iff {x y : Descriptor N} : Holds g x y ↔
    x.kind = .wrapper ∧ ∃ value, x.elements = [value] ∧ y = value.child g := by
  constructor
  · rintro ⟨hk, hneeds⟩
    cases hneeds with
    | inner _ hes => exact ⟨hk, _, hes, rfl⟩
    | _ => simp_all
  · rintro ⟨hk, value, hes, rfl⟩
    exact ⟨hk, .inner hk hes⟩

theorem Holds.of_outline {x x' y : Descriptor N} (h : x.outline = x'.outline) (hy : Holds g x y) :
    Holds g x' y :=
  ⟨(Descriptor.kind_eq_of_outline h).symm.trans hy.1, hy.2.of_outline h⟩

theorem innermost_of_holds {x y : Descriptor N} (h : Holds g x y) (n : Nat) :
    x.innermost g (n + 1) = y.innermost g n := by
  obtain ⟨hk, value, hes, rfl⟩ := holds_iff.mp h
  rw [Descriptor.innermost, if_pos (Descriptor.isWrapper_iff.mpr hk), Use.wrapped_eq_ok.mpr hes]

/-! ## Looking through wrappers -/

namespace Endless

variable {x y : Descriptor N}

theorem of_holds (h : Holds g x y) (hy : Endless g y) : Endless g x := by
  obtain ⟨w, hlook, hcycle⟩ := hy
  exact ⟨w, .head h hlook, hcycle⟩

/-- The way into a cycle goes on for ever. -/
theorem exists_holds (h : Endless g x) : ∃ y, Holds g x y ∧ Endless g y := by
  obtain ⟨w, hlook, hcycle⟩ := h
  rcases Relation.ReflTransGen.cases_head hlook with rfl | ⟨y, hy, hlook⟩
  · obtain ⟨y, hy, hback⟩ := Relation.TransGen.head'_iff.mp hcycle
    exact ⟨y, hy, x, hback, hcycle⟩
  · exact ⟨y, hy, w, hlook, hcycle⟩

theorem of_outline (h : x.outline = y.outline) (hx : Endless g x) : Endless g y := by
  obtain ⟨z, hz, hendless⟩ := hx.exists_holds
  exact hendless.of_holds (hz.of_outline h)

theorem innermost (h : Endless g x) (n : Nat) : x.innermost g n = .error .outOfFuel := by
  induction n generalizing x with
  | zero =>
    obtain ⟨y, hy, _⟩ := h.exists_holds
    rw [Descriptor.innermost, if_pos (Descriptor.isWrapper_iff.mpr hy.1)]
  | succ n ih =>
    obtain ⟨y, hy, hendless⟩ := h.exists_holds
    rw [innermost_of_holds hy, ih hendless]

end Endless

/-- On a finite graph there is nothing else that could go on for ever. -/
theorem exists_innermost_of_not_endless {x : Descriptor N} (hfin : {y | Reaches g x y}.Finite)
    (h : ¬ Endless g x) : ∃ n, ∀ m ≥ n, x.innermost g m ≠ .error .outOfFuel := by
  have hreaches : {y | LooksTo g x y} ⊆ {y | Reaches g x y} := fun y hy =>
    Relation.ReflTransGen.mono (fun _ _ hstep => hstep.2.child) x y hy
  have hall : ∀ y, LooksTo g x y → ∃ n, ∀ m ≥ n, y.innermost g m ≠ .error .outOfFuel := by
    refine induction_of_acyclic (r := Holds g) (hfin.subset hreaches) (fun y hy z hz => hy.tail hz)
      (fun y hy hcycle => h ⟨y, hy, hcycle⟩) fun y _ ih => ?_
    refine exists_innermost_of_inside fun value hw hes => ih (value.child g) ?_
    exact holds_iff.mpr ⟨Descriptor.isWrapper_iff.mp hw, value, hes, rfl⟩
  exact hall x .refl

/-! ## Keys of maps -/

/-- The value of a map is found unless looking through the key takes too long. -/
theorem stringKeyedValue_eq_outOfFuel_iff {d : Descriptor N} {n : Nat} :
    d.stringKeyedValue g n = .error .outOfFuel ↔ ∃ key value, d.elements = [key, value] ∧
      (key.child g).innermost g n = .error .outOfFuel := by
  unfold Descriptor.stringKeyedValue
  constructor
  · intro h
    rcases except_bind_eq_error.mp h with h | ⟨⟨key, value⟩, hentries, h⟩
    · cases hm : d.mapEntries with
      | ok entries => rw [hm] at h; cases h
      | error e => rw [hm] at h; cases h
    · refine ⟨key, value, Descriptor.mapEntries_eq_ok (except_mapError_eq_ok.mp hentries), ?_⟩
      rcases except_bind_eq_error.mp h with h | ⟨k, _, h⟩
      · exact h
      · split at h
        · cases h
        · cases h
  · rintro ⟨key, value, hes, hkey⟩
    simp only [Descriptor.mapEntries, hes]
    change ((key.child g).innermost g n >>= _) = _
    rw [hkey]
    rfl

theorem halts_ofExcept_iff {α : Type} {x : Except Failure α} {r : Registry} :
    Halts (Build.ofExcept x) r ↔ x ≠ .error .outOfFuel := by
  refine ⟨fun h hx => ?_, fun h => .ofExcept h r⟩
  rw [hx] at h
  exact h r rfl

theorem halts_stringKeyedValue_iff {d : Descriptor N} {n : Nat} (gen : Generator N)
    (as : Annotations) (r : Registry) : Halts (gen.context g n d as).stringKeyedValue r ↔
      ∀ key value, d.elements = [key, value] →
        (key.child g).innermost g n ≠ .error .outOfFuel := by
  rw [stringKeyedValue_run, halts_ofExcept_iff]
  change d.stringKeyedValue g n ≠ _ ↔ _
  rw [ne_eq, stringKeyedValue_eq_outOfFuel_iff]
  simp only [not_exists, not_and]

/-- Where finitely many descriptors are within reach, looking through the wrappers of a descriptor
ends exactly if they do not lead into a cycle of wrappers. Of the elements of a map it is the key
whose wrappers are looked through, and there the same holds. -/
theorem unwrapping_ends_iff {d : Descriptor N} (hfin : {x | Reaches g d x}.Finite) :
    ((∃ n, ∀ m ≥ n, d.innermost g m ≠ .error .outOfFuel) ↔ ¬ Endless g d) ∧
    ∀ (gen : Generator N) (as : Annotations),
      (∃ n, ∀ m ≥ n, ∀ r, Halts (gen.context g m d as).stringKeyedValue r) ↔
        ∀ key value, d.elements = [key, value] → ¬ Endless g (key.child g) := by
  refine ⟨⟨fun h hendless => ?_, exists_innermost_of_not_endless hfin⟩, fun gen as =>
    ⟨fun h key value hes hendless => ?_, fun h => ?_⟩⟩
  · obtain ⟨n, hn⟩ := h
    exact hn n (Nat.le_refl n) (hendless.innermost n)
  · obtain ⟨n, hn⟩ := h
    have hkey := (halts_stringKeyedValue_iff gen as {}).mp (hn n (Nat.le_refl n) {}) key value hes
    exact hkey (hendless.innermost n)
  · simp only [halts_stringKeyedValue_iff]
    by_cases hes : ∃ key value, d.elements = [key, value]
    · obtain ⟨key, value, hes⟩ := hes
      have hchild : Child g d (key.child g) := ⟨key, by simp [hes], rfl⟩
      have hkeyfin := hfin.subset fun x (hx : Reaches g (key.child g) x) => hx.head hchild
      obtain ⟨n, hn⟩ := exists_innermost_of_not_endless hkeyfin (h key value hes)
      refine ⟨n, fun m hm _ key' value' hes' => ?_⟩
      obtain ⟨rfl, rfl⟩ : key = key' ∧ value = value' := by simpa [hes] using hes'
      exact hn m hm
    · exact ⟨0, fun _ _ _ key value hes' => absurd ⟨key, value, hes'⟩ hes⟩

/-! ## Building -/

/-- A pointer is of no use if neither the definition nor what is left of the wrappers is found. -/
theorem refer_outOfFuel {b : Build Object} (hb : ∀ r, ∃ r', b r = .error .outOfFuel r')
    (key : String) (nullable : Bool) (as : Annotations) (r : Registry) :
    ∃ r', Generator.refer (N := N) key nullable b as (.error .outOfFuel) r =
      .error .outOfFuel r' := by
  rw [Use.refer_eq, bind_run]
  by_cases hc : r.contains key = true
  · rw [request_known hc]
    exact ⟨r, rfl⟩
  · obtain ⟨r', hr'⟩ := hb (r.insert key .pending)
    rw [request_unknown_some (by simpa using hc), hr']
    exact ⟨r', rfl⟩

/-- A descriptor whose wrappers lead into a cycle is never built, with any strategies, under any
annotations and whatever the registry holds. -/
theorem build_of_endless (gen : Generator N) {d : Descriptor N} (h : Endless g d) (n : Nat)
    (inherited : Annotations) (r : Registry) :
    ∃ r', gen.build g n d inherited r = .error .outOfFuel r' := by
  induction n generalizing d inherited r with
  | zero =>
    rw [Generator.build]
    exact ⟨r, rfl⟩
  | succ n ih =>
    obtain ⟨c, hc, hendless⟩ := h.exists_holds
    obtain ⟨hk, value, hes, rfl⟩ := holds_iff.mp hc
    rw [Generator.build, if_pos (Descriptor.isWrapper_iff.mpr hk), Use.wrapped_eq_ok.mpr hes]
    show ∃ r', (pure value >>= _ : Build Object) r = .error .outOfFuel r'
    rw [pure_bind]
    dsimp only
    -- With a key the pending definition ends the build of the cycle, but then the pointer needs the
    -- descriptor inside all wrappers.
    cases hkey : d.requestedKey? inherited with
    | none => exact ih (hendless.of_outline (d.outline_passNullable _).symm) _ r
    | some key =>
      rw [hendless.innermost n]
      exact refer_outOfFuel (fun r => ih hendless _ r) key d.nullable inherited r

theorem schemaOf_of_endless (gen : Generator N) {d : Descriptor N} (h : Endless g d) (n : Nat)
    (seed : Annotations) : gen.schemaOf g n d seed = .error .outOfFuel := by
  obtain ⟨r', hrun⟩ := build_of_endless gen h n seed {}
  unfold Generator.schemaOf
  rw [hrun]

/-! ## An echo -/

/-- A wrapper around nothing but another echo. -/
def echo : Descriptor Unit where
  serialName := "Echo"
  kind := .wrapper
  annotations := [.refBySerialName]
  elements := [{ name := "of", target := () }]

def echoGraph : Graph Unit := fun _ => echo

/-- A map whose keys are echoes. -/
def index : Descriptor Unit := .map "Index" () ()

theorem eq_echo_of_child {x y : Descriptor Unit} (h : Child echoGraph x y) : y = echo := by
  obtain ⟨_, _, rfl⟩ := h
  rfl

theorem finite_index : {x | Reaches echoGraph index x}.Finite := by
  refine (Set.toFinite {index, echo}).subset fun x hx => ?_
  rcases Relation.ReflTransGen.cases_tail hx with rfl | ⟨_, _, hchild⟩
  · exact Or.inl rfl
  · exact Or.inr (eq_echo_of_child hchild)

theorem endless_echo : Endless echoGraph echo :=
  ⟨echo, .refl, .single (holds_iff.mpr ⟨rfl, _, rfl, rfl⟩)⟩

/-- An index is no wrapper, so looking through the wrappers around it ends at once. But it has to be
looked through its keys as well, and that does not end. -/
theorem unwrapping_ends_index : {x | Reaches echoGraph index x}.Finite ∧
    (∃ n, ∀ m ≥ n, index.innermost echoGraph m ≠ .error .outOfFuel) ∧
    ¬ ∃ n, ∀ m ≥ n, ∀ r,
      Halts (Generator.context {} echoGraph m index []).stringKeyedValue r := by
  obtain ⟨hinner, hkey⟩ := unwrapping_ends_iff finite_index
  refine ⟨finite_index, hinner.mpr fun h => ?_, fun h => (hkey {} []).mp h _ _ rfl endless_echo⟩
  obtain ⟨_, ⟨hk, _⟩, _⟩ := h.exists_holds
  cases hk

/-- The only cycle is that of the echo, and its request for a definition cuts it. Yet looking
through an echo goes on for ever, by itself and as the key of an index, and so does every call for
the schema of one. -/
theorem endless_although_cut : CyclesCut echoGraph index ∧ Reaches echoGraph index echo ∧
    (∀ n, echo.innermost echoGraph n = .error .outOfFuel) ∧
    (∀ gen n as r, ¬ Halts (Generator.context gen echoGraph n index as).stringKeyedValue r) ∧
    ∀ gen n seed, Generator.schemaOf gen echoGraph n echo seed = .error .outOfFuel := by
  refine ⟨⟨finite_index, fun x _ hcycle => ?_⟩, .single ⟨_, List.mem_cons_self, rfl⟩,
    endless_echo.innermost, fun gen n as r h => ?_, fun gen => schemaOf_of_endless gen endless_echo⟩
  · -- a cycle leads back to a child, which is an echo, and goes on from there
    obtain ⟨_, _, _, hchild⟩ := Relation.TransGen.tail'_iff.mp hcycle
    obtain ⟨_, ⟨huncut, _⟩, _⟩ := Relation.TransGen.head'_iff.mp hcycle
    rw [eq_echo_of_child hchild] at huncut
    cases huncut
  · exact (halts_stringKeyedValue_iff gen as r).mp h _ _ rfl (endless_echo.innermost n)

end TypeSchema
