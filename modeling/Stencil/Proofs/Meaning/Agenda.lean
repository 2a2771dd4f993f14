/-
  What is left to do of a template.

  A walk of a template goes from element to element.  Where it is, is said by an `Agenda`: the elements that
  come next, what stands around them, and the records.  `Agenda.step` takes the next element off it, or
  leaves a group, or asks a loop for one more run.  It knows neither nodes nor sinks.

  Agendas have outcomes: some bytes, and whether all went well (`Outcome`).  There is one at most
  (`Outcome.unique`).  So two walks that follow one agenda write the same bytes.
-/
import Stencil.Proofs.Loop
import Stencil.Proofs.Meaning.Basic

set_option autoImplicit false

namespace Stencil.Meaning

/-- What stands around elements. -/
inductive Surrounding where
  /-- A group, behind which there are elements under a key. -/
  | group (key : String) (behind : List Element)
  /-- A run of a loop over a body, behind which there are elements. -/
  | loop (l : Loop) (body behind : List Element)

/-- What is left to do. -/
structure Agenda where
  /-- The key of what contains the elements that come next. -/
  key : String
  /-- The elements that come next. -/
  ahead : List Element
  /-- What stands around them, the nearest first. -/
  outer : List Surrounding
  /-- The records of the template. -/
  main : Option Table
  /-- The secondary documents. -/
  secondary : Combined

/-- What a step leads to. -/
inductive Step where
  /-- Nothing is left to do. -/
  | ends
  | fails
  /-- Bytes are written, and the rest is left to do. -/
  | goesOn (bytes : Bytes) (rest : Agenda)

namespace Agenda

/-- The value of a field in the records. -/
def recordValue (a : Agenda) (e : Element) : String :=
  let key := keyIn a.key e
  match if e.attr? "type" = some "combined" then a.secondary.field? key else none with
  | some value => value
  | none => (a.main.map fun t => t.field key).getD ""

/-- What a loop moves on. -/
def feed (a : Agenda) (l : Loop) : Feed :=
  if l.feedsOnDocuments then .documents a.secondary else .records a.main

/-- The agenda with what a loop has moved on. -/
def withFeed (a : Agenda) : Feed → Agenda
  | .documents c => { a with secondary := c }
  | .records t => { a with main := t }

/-- The state of a loop, apart from where it stands. -/
def bare (a : Agenda) (l : Loop) : Loop.Turn := ⟨l, .empty, a.feed l, []⟩

/-- Starts the next run of a loop, or ends it; says which.  None if the loop fails. -/
def turn (a : Agenda) (l : Loop) (body behind : List Element) : Option (Bool × Agenda) :=
  match Loop.Turn.move (a.bare l) with
  | .error _ _ => none
  | .ok more s =>
    if more && !body.isEmpty && !(l.max.any (· < l.count + 1)) then
      some (true, { a.withFeed s.feed with
        key := l.bodyKey
        ahead := body
        outer := .loop { s.loop with count := l.count + 1 } body behind :: a.outer })
    else some (false, { a.withFeed s.restored with key := l.key, ahead := behind })

/-- Takes the next element off. -/
def visit (a : Agenda) (e : Element) (es : List Element) : Step :=
  match Tag.ofName? e.name with
  | some .item =>
    match fieldBytes e (a.recordValue e) with
    | .ok bytes => .goesOn bytes { a with ahead := es }
    | .error _ => .fails
  | some .items =>
    if e.children.isEmpty then .goesOn [] { a with ahead := es }
    else
      .goesOn [] { a with
        key := keyIn a.key e
        ahead := e.children
        outer := .group a.key es :: a.outer }
  | some .loop =>
    match Loop.declared (Tree.ofElement e) 0 a.key a.secondary with
    | .error _ => .fails
    | .ok l => (a.turn l e.children es).elim .fails fun r => .goesOn [] r.2
  | some _ => .goesOn [] { a with ahead := es }
  | none => .fails

/-- Leaves what is around, when no element comes next.  `stray` says that the elements stand in a loop that is
    never entered, which is asked for one more run at the end of the template. -/
def leave (stray : Bool) (a : Agenda) : List Surrounding → Step
  | [] => if stray then .fails else .ends
  | .group key behind :: outer => .goesOn [] { a with key, ahead := behind, outer }
  | .loop l body behind :: outer =>
    match { a with outer }.turn l body behind with
    | none => .fails
    | some (true, a) => .goesOn [] a
    | some (false, a) => if behind.isEmpty && outer.isEmpty then .ends else .goesOn [] a

/-- One step. -/
def step (stray : Bool) (a : Agenda) : Step :=
  match a.ahead with
  | e :: es => a.visit e es
  | [] => a.leave stray a.outer

/-- A field is written, or it cannot be. -/
theorem step_of_item {a : Agenda} {e : Element} {es : List Element} (stray : Bool) (ha : a.ahead = e :: es)
    (hname : e.name = "item") : a.step stray = match fieldBytes e (a.recordValue e) with
      | .ok bytes => .goesOn bytes { a with ahead := es }
      | .error _ => .fails := by
  unfold step
  rw [ha]
  dsimp only
  unfold visit
  rw [hname]
  rfl

end Agenda

/-! ## Outcomes -/

variable {stray : Bool} {a a' a₁ : Agenda} {bs cs : Bytes} {ok ok' : Bool}

/-- What becomes of an agenda: the bytes that are written, and whether it does not fail. -/
inductive Outcome (stray : Bool) : Agenda → Bytes → Bool → Prop
  | ends {a : Agenda} (h : a.step stray = .ends) : Outcome stray a [] true
  | fails {a : Agenda} (h : a.step stray = .fails) : Outcome stray a [] false
  | goesOn {a a' : Agenda} {bs cs : Bytes} {ok : Bool} (h : a.step stray = .goesOn bs a')
      (further : Outcome stray a' cs ok) : Outcome stray a (bs ++ cs) ok

/-- An agenda has one outcome at most. -/
theorem Outcome.unique (h : Outcome stray a bs ok) (h' : Outcome stray a cs ok') : bs = cs ∧ ok = ok' := by
  induction h generalizing cs ok' with
  | ends h =>
    cases h' with
    | ends => exact ⟨rfl, rfl⟩
    | fails h' => rw [h] at h'; cases h'
    | goesOn h' => rw [h] at h'; cases h'
  | fails h =>
    cases h' with
    | ends h' => rw [h] at h'; cases h'
    | fails => exact ⟨rfl, rfl⟩
    | goesOn h' => rw [h] at h'; cases h'
  | goesOn h _ ih =>
    cases h' with
    | ends h' => rw [h] at h'; cases h'
    | fails h' => rw [h] at h'; cases h'
    | goesOn h' further =>
      rw [h] at h'
      cases h'
      obtain ⟨rfl, rfl⟩ := ih further
      exact ⟨rfl, rfl⟩

/-- Steps lead from one agenda to another and write some bytes. -/
def Leads (stray : Bool) (a : Agenda) (bs : Bytes) (a' : Agenda) : Prop :=
  ∀ cs ok, Outcome stray a' cs ok → Outcome stray a (bs ++ cs) ok

theorem Leads.refl (a : Agenda) : Leads stray a [] a := fun _ _ h => h

theorem Leads.of_step (h : a.step stray = .goesOn bs a') : Leads stray a bs a' :=
  fun _ _ further => .goesOn h further

theorem Leads.trans (h : Leads stray a bs a₁) (h' : Leads stray a₁ cs a') :
    Leads stray a (bs ++ cs) a' := by
  intro ds ok further
  rw [List.append_assoc]
  exact h _ _ (h' _ _ further)

end Stencil.Meaning
