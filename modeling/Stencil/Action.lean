/-
  Steps of a run.

  A step works on a state and may fail; what it has done to the state before it fails stays done.
  Fields, loops, documents and outputs each have a state of their own; `within` lets a step on a part
  of a state work on the whole, and changes nothing else.

  The equations at the end say how a step runs, one for each way of putting steps together.
-/
import Stencil.Error

set_option autoImplicit false

namespace Stencil

/-- A step that works on a state and may fail. -/
abbrev Action (σ α : Type) := EStateM Error σ α

namespace Action

variable {σ τ α β : Type}

/-- Fails at no place yet. -/
def fail (cause : Cause) : Action σ α := throw (.of cause)

/-- Fails at a place. -/
def failAt (cause : Cause) (site : String) : Action σ α := throw (.atSite cause site)

/-- A result as a step that leaves the state alone. -/
def ofExcept (r : Except Error α) : Action σ α := fun s =>
  match r with
  | .ok a => .ok a s
  | .error e => .error e s

/-- A step on a part of the state.  The part is taken out while the step works on it. -/
def within [Inhabited τ] (part : σ → τ) (put : τ → σ → σ) (x : Action τ α) : Action σ α := fun s =>
  let t := part s
  let rest := put default s
  match x t with
  | .ok a t => .ok a (put t rest)
  | .error e t => .error e (put t rest)

/-- A step whose failures get the site that the state names, unless they have one. -/
def locating (site : σ → String) (x : Action σ α) : Action σ α := fun s =>
  match x s with
  | .ok a s => .ok a s
  | .error e s => .error (e.locate (site s)) s

/-- A step that does what is left to do in any case behind another one. -/
def ensuring (x : Action σ α) (last : σ → σ) : Action σ α := fun s =>
  match x s with
  | .ok a s => .ok a (last s)
  | .error e s => .error e (last s)

/-- The result of a step and the state behind it. -/
def outcome (x : Action σ α) (s : σ) : Except Error α × σ :=
  match x s with
  | .ok a s => (.ok a, s)
  | .error e s => (.error e, s)

@[simp] theorem outcome_pure (a : α) (s : σ) : outcome (pure a : Action σ α) s = (.ok a, s) := rfl

@[simp] theorem outcome_bind (x : Action σ α) (f : α → Action σ β) (s : σ) :
    outcome (x >>= f) s
      = match outcome x s with
        | (.ok a, s) => outcome (f a) s
        | (.error e, s) => (.error e, s) := by
  simp only [outcome, bind, EStateM.bind]
  cases x s <;> rfl

@[simp] theorem outcome_ofExcept (r : Except Error α) (s : σ) :
    outcome (ofExcept r : Action σ α) s = (r, s) := by
  cases r <;> rfl

@[simp] theorem outcome_within [Inhabited τ] (part : σ → τ) (put : τ → σ → σ) (x : Action τ α)
    (s : σ) :
    outcome (within part put x) s
      = ((outcome x (part s)).1, put (outcome x (part s)).2 (put default s)) := by
  simp only [outcome, within]
  cases x (part s) <;> rfl

@[simp] theorem outcome_locating (site : σ → String) (x : Action σ α) (s : σ) :
    outcome (locating site x) s
      = ((outcome x s).1.mapError fun e => e.locate (site (outcome x s).2), (outcome x s).2) := by
  simp only [outcome, locating]
  cases x s <;> rfl

end Action

end Stencil
