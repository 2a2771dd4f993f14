/-
  When a step succeeds, and when it fails.

  A step that is put together from others succeeds if they do, one behind the other, and the states in
  between are those that the others leave.  There is one law for each way of putting steps together, so
  that a claim about a step is taken apart by `obtain` and nobody has to look into `EStateM`.

  Some things hold behind a step whether it succeeds or not (`Always`).
-/
import Stencil.Action

set_option autoImplicit false

namespace Stencil.Action

variable {σ τ α β : Type}

/-! ## Success -/

theorem bind_eq_ok {x : Action σ α} {f : α → Action σ β} {s s' : σ} {b : β} :
    (x >>= f) s = .ok b s' ↔ ∃ a s₁, x s = .ok a s₁ ∧ f a s₁ = .ok b s' := by
  show EStateM.bind x f s = .ok b s' ↔ _
  unfold EStateM.bind
  cases x s with
  | ok a s₁ =>
    constructor
    · intro h
      exact ⟨a, s₁, rfl, h⟩
    · rintro ⟨a', s', h, hf⟩
      cases h
      exact hf
  | error e s₁ => simp

@[simp] theorem pure_eq_ok {a b : α} {s s' : σ} :
    (pure a : Action σ α) s = .ok b s' ↔ a = b ∧ s = s' := by
  show EStateM.Result.ok a s = .ok b s' ↔ _
  simp

@[simp] theorem get_eq_ok {s s' a : σ} : (get : Action σ σ) s = .ok a s' ↔ a = s ∧ s' = s := by
  show EStateM.Result.ok s s = .ok a s' ↔ _
  rw [EStateM.Result.ok.injEq]
  exact ⟨fun h => ⟨h.1.symm, h.2.symm⟩, fun h => ⟨h.1.symm, h.2.symm⟩⟩

@[simp] theorem set_eq_ok {s s' t : σ} {u : PUnit} :
    (set t : Action σ PUnit) s = .ok u s' ↔ s' = t := by
  show EStateM.Result.ok PUnit.unit t = .ok u s' ↔ _
  rw [EStateM.Result.ok.injEq]
  exact ⟨fun h => h.2.symm, fun h => ⟨rfl, h.symm⟩⟩

@[simp] theorem modify_eq_ok {f : σ → σ} {s s' : σ} {u : PUnit} :
    (modify f : Action σ PUnit) s = .ok u s' ↔ s' = f s := by
  show EStateM.Result.ok PUnit.unit (f s) = .ok u s' ↔ _
  rw [EStateM.Result.ok.injEq]
  exact ⟨fun h => h.2.symm, fun h => ⟨rfl, h.symm⟩⟩

@[simp] theorem fail_eq_ok {c : Cause} {s s' : σ} {a : α} :
    (fail c : Action σ α) s = .ok a s' ↔ False :=
  ⟨fun h => (nomatch h), False.elim⟩

@[simp] theorem failAt_eq_ok {c : Cause} {site : String} {s s' : σ} {a : α} :
    (failAt c site : Action σ α) s = .ok a s' ↔ False :=
  ⟨fun h => (nomatch h), False.elim⟩

@[simp] theorem ofExcept_eq_ok {r : Except Error α} {s s' : σ} {a : α} :
    (ofExcept r : Action σ α) s = .ok a s' ↔ r = .ok a ∧ s' = s := by
  unfold ofExcept
  cases r with
  | ok b =>
    show EStateM.Result.ok b s = .ok a s' ↔ _
    rw [EStateM.Result.ok.injEq, Except.ok.injEq]
    exact ⟨fun h => ⟨h.1, h.2.symm⟩, fun h => ⟨h.1, h.2.symm⟩⟩
  | error e => simp

theorem within_eq_ok [Inhabited τ] {part : σ → τ} {put : τ → σ → σ} {x : Action τ α} {s s' : σ}
    {a : α} :
    within part put x s = .ok a s'
      ↔ ∃ t, x (part s) = .ok a t ∧ s' = put t (put default s) := by
  unfold within
  cases h : x (part s) with
  | ok b t =>
    constructor
    · intro hs
      simp only [h] at hs
      cases hs
      exact ⟨t, rfl, rfl⟩
    · rintro ⟨t', ht, rfl⟩
      cases ht
      simp only [h]
  | error e t =>
    constructor
    · intro hs
      simp only [h] at hs
      cases hs
    · rintro ⟨t', ht, -⟩
      cases ht

@[simp] theorem locating_eq_ok {site : σ → String} {x : Action σ α} {s s' : σ} {a : α} :
    locating site x s = .ok a s' ↔ x s = .ok a s' := by
  unfold locating
  cases x s <;> simp

/-! ## Success behind a step that does not fail -/

theorem get_bind_eq_ok {f : σ → Action σ β} {s s' : σ} {b : β} :
    (get >>= f) s = .ok b s' ↔ f s s = .ok b s' := Iff.rfl

theorem set_bind_eq_ok {f : PUnit → Action σ β} {s s' t : σ} {b : β} :
    ((set t : Action σ PUnit) >>= f) s = .ok b s' ↔ f ⟨⟩ t = .ok b s' := Iff.rfl

theorem modify_bind_eq_ok {f : PUnit → Action σ β} {g : σ → σ} {s s' : σ} {b : β} :
    ((modify g : Action σ PUnit) >>= f) s = .ok b s' ↔ f ⟨⟩ (g s) = .ok b s' := Iff.rfl

theorem ofExcept_bind_eq_ok {r : Except Error α} {f : α → Action σ β} {s s' : σ} {b : β} :
    (ofExcept r >>= f) s = .ok b s' ↔ ∃ a, r = .ok a ∧ f a s = .ok b s' := by
  rw [bind_eq_ok]
  constructor
  · rintro ⟨a, s₁, h, hf⟩
    obtain ⟨hr, rfl⟩ := ofExcept_eq_ok.mp h
    exact ⟨a, hr, hf⟩
  · rintro ⟨a, hr, hf⟩
    exact ⟨a, s, ofExcept_eq_ok.mpr ⟨hr, rfl⟩, hf⟩

/-- A step behind two branches stands behind the choice between them. -/
theorem ite_bind {c : Prop} [Decidable c] {x y : Action σ α} {f : α → Action σ β} :
    (if c then x >>= f else y >>= f) = (if c then x else y) >>= f := by
  split <;> rfl

theorem bind_ext {x : Action σ α} {f g : α → Action σ β} (h : ∀ a, f a = g a) :
    x >>= f = x >>= g := by
  rw [funext h]

theorem get_bind {f : σ → Action σ β} {s : σ} : (get >>= f) s = f s s := rfl

theorem bind_of_ok {x : Action σ α} {f : α → Action σ β} {s s₁ : σ} {a : α} (h : x s = .ok a s₁) :
    (x >>= f) s = f a s₁ := by
  show EStateM.bind x f s = _
  unfold EStateM.bind
  rw [h]

theorem modify_bind {f : PUnit → Action σ β} {g : σ → σ} {s : σ} :
    ((modify g : Action σ PUnit) >>= f) s = f ⟨⟩ (g s) := rfl

theorem bind_of_error {x : Action σ α} {f : α → Action σ β} {s s₁ : σ} {e : Error} (h : x s = .error e s₁) :
    (x >>= f) s = .error e s₁ := by
  show EStateM.bind x f s = _
  unfold EStateM.bind
  rw [h]

/-- What follows a step matters only where the step leads. -/
theorem bind_congr {x : Action σ α} {f g : α → Action σ β} {s : σ}
    (h : ∀ a s₁, x s = .ok a s₁ → f a s₁ = g a s₁) : (x >>= f) s = (x >>= g) s := by
  show EStateM.bind x f s = EStateM.bind x g s
  unfold EStateM.bind
  cases hx : x s with
  | ok a s₁ => exact h a s₁ hx
  | error e s₁ => rfl

/-- Whether a step has succeeded, with a value and a state that pass a test. -/
def succeeds (r : EStateM.Result Error σ α) (p : α → σ → Bool) : Bool :=
  match r with
  | .ok a s => p a s
  | .error _ _ => false

theorem succeeds_iff {r : EStateM.Result Error σ α} {p : α → σ → Bool} :
    succeeds r p = true ↔ ∃ a s, r = .ok a s ∧ p a s = true := by
  unfold succeeds
  cases r with
  | ok a s =>
    constructor
    · exact fun h => ⟨a, s, rfl, h⟩
    · rintro ⟨_, _, h, hp⟩
      cases h
      exact hp
  | error e s => simp

/-! ## Failure -/

theorem bind_eq_error {x : Action σ α} {f : α → Action σ β} {s s' : σ} {e : Error} :
    (x >>= f) s = .error e s'
      ↔ x s = .error e s' ∨ ∃ a s₁, x s = .ok a s₁ ∧ f a s₁ = .error e s' := by
  show EStateM.bind x f s = .error e s' ↔ _
  unfold EStateM.bind
  cases x s with
  | ok a s₁ =>
    constructor
    · intro h
      exact .inr ⟨a, s₁, rfl, h⟩
    · rintro (h | ⟨a', s', h, hf⟩)
      · cases h
      · cases h
        exact hf
  | error e s₁ => simp

/-! ## Either way -/

variable {R : σ → σ → Prop}

/-- Whatever becomes of a step, the states before and behind it are related. -/
def Always (R : σ → σ → Prop) (x : Action σ α) : Prop := ∀ s, R s (outcome x s).2

theorem outcome_of_ok {x : Action σ α} {s s' : σ} {a : α} (h : x s = .ok a s') : outcome x s = (.ok a, s') := by
  unfold outcome
  rw [h]

theorem outcome_of_error {x : Action σ α} {s s' : σ} {e : Error} (h : x s = .error e s') :
    outcome x s = (.error e, s') := by
  unfold outcome
  rw [h]

theorem Always.of_ok {x : Action σ α} {s s' : σ} {a : α} (h : Always R x) (hx : x s = .ok a s') : R s s' := by
  have hs := h s
  rwa [outcome_of_ok hx] at hs

theorem Always.of_error {x : Action σ α} {s s' : σ} {e : Error} (h : Always R x) (hx : x s = .error e s') : R s s' := by
  have hs := h s
  rwa [outcome_of_error hx] at hs

theorem always_pure (hrefl : ∀ s, R s s) (a : α) : Always R (pure a) := fun s => hrefl s

theorem always_fail (hrefl : ∀ s, R s s) (cause : Cause) : Always R (fail cause : Action σ α) := fun s => hrefl s

theorem always_ofExcept (hrefl : ∀ s, R s s) (r : Except Error α) : Always R (ofExcept r) := by
  intro s
  rw [outcome_ofExcept]
  exact hrefl s

theorem always_modify {f : σ → σ} (h : ∀ s, R s (f s)) : Always R (modify f) := h

/-- Reading the state changes nothing. -/
theorem always_get_bind {f : σ → Action σ β} (h : ∀ s, R s (outcome (f s) s).2) : Always R (get >>= f) := h

theorem always_bind (htrans : ∀ s s₁ s₂, R s s₁ → R s₁ s₂ → R s s₂) {x : Action σ α} {f : α → Action σ β}
    (hx : Always R x) (hf : ∀ a, Always R (f a)) : Always R (x >>= f) := by
  intro s
  have hs := hx s
  rw [outcome_bind]
  split
  · rename_i a s₁ h
    rw [h] at hs
    exact htrans _ _ _ hs (hf a s₁)
  · rename_i e s₁ h
    rw [h] at hs
    exact hs

theorem always_foldlM (hrefl : ∀ s, R s s) (htrans : ∀ s s₁ s₂, R s s₁ → R s₁ s₂ → R s s₂) {f : β → α → Action σ β}
    (h : ∀ b a, Always R (f b a)) (b : β) (as : List α) : Always R (as.foldlM f b) := by
  induction as generalizing b with
  | nil => exact always_pure hrefl b
  | cons a as ih =>
    rw [List.foldlM_cons]
    exact always_bind htrans (h b a) ih

end Stencil.Action
