/-
  Steps on the parts of a walk.

  Each of them is an equation for the walk behind the step: the part has changed and the rest has not.  The
  end of a run is taken apart here, too: `closeLoops` writes up what waits, and then it asks a loop
  (`askLoop`).
-/
import Stencil.Proofs.Action
import Stencil.Walk.Round

set_option autoImplicit false

namespace Stencil.Walk

variable {α : Type} {w w₁ w' : Walk} {o : Options} {a : α} {u : Unit}

@[simp] theorem modifyTree_eq_ok {g : Tree → Tree} :
    modifyTree g w = .ok u w'
      ↔ w' = { w with space := { w.space with tree := g w.space.tree } } := by
  rw [modifyTree, onSpace, Action.within_eq_ok]
  constructor
  · rintro ⟨space, hs, rfl⟩
    rw [Action.modify_eq_ok.mp hs]
  · rintro rfl
    exact ⟨_, rfl, rfl⟩

theorem onTree_ok {x : Action Tree α} (h : onTree x w = .ok a w') :
    ∃ t, x w.space.tree = .ok a t ∧ w' = { w with space := { w.space with tree := t } } := by
  obtain ⟨t, ht, rfl⟩ := Action.within_eq_ok.mp h
  exact ⟨t, ht, rfl⟩

theorem onDesk_ok {x : Action Import.Desk α} (h : onDesk x w = .ok a w') :
    ∃ d, x ⟨w.space.tree, w.library⟩ = .ok a d
      ∧ w' = { w with space := { w.space with tree := d.tree }, library := d.library } := by
  obtain ⟨d, hd, rfl⟩ := Action.within_eq_ok.mp h
  exact ⟨d, hd, rfl⟩

theorem onSink_ok {x : Files → Action Job Unit} (h : onSink x w = .ok u w') :
    (w.sink = none ∧ w' = w)
      ∨ ∃ s j, w.sink = some s ∧ x w.files ⟨w.space, s⟩ = .ok () j
        ∧ w' = { w with sink := some j.sink, space := j.space } := by
  unfold onSink at h
  cases hs : w.sink with
  | none =>
    simp only [hs] at h
    cases h
    exact .inl ⟨rfl, rfl⟩
  | some s =>
    refine .inr ?_
    simp only [hs] at h
    cases hj : x w.files ⟨w.space, s⟩ with
    | error e j => simp only [hj] at h; cases h
    | ok v j =>
      simp only [hj] at h
      cases h
      exact ⟨s, j, rfl, hj, rfl⟩

theorem onSink_modifySink {g : Sink → Sink} :
    onSink (fun _ => Job.modifySink g) w = .ok () { w with sink := w.sink.map g } := by
  unfold onSink
  cases hs : w.sink with
  | none =>
    simp only [Option.map_none]
    rw [← hs]
  | some s => rfl

@[simp] theorem pushLevel_eq_ok :
    pushLevel w = .ok u w'
      ↔ w' = { w with sink := w.sink.map Sink.push, depth := w.depth + 1 } := by
  rw [pushLevel, Action.bind_eq_ok]
  constructor
  · rintro ⟨_, w₁, h₁, h⟩
    rw [onSink_modifySink] at h₁
    cases h₁
    exact Action.modify_eq_ok.mp h
  · rintro rfl
    exact ⟨(), _, onSink_modifySink, rfl⟩

@[simp] theorem popLevel_eq_ok :
    popLevel w = .ok u w'
      ↔ w' = { w with sink := w.sink.map Sink.pop, depth := w.depth - 1 } := by
  rw [popLevel, Action.bind_eq_ok]
  constructor
  · rintro ⟨_, w₁, h₁, h⟩
    rw [onSink_modifySink] at h₁
    cases h₁
    exact Action.modify_eq_ok.mp h
  · rintro rfl
    exact ⟨(), _, onSink_modifySink, rfl⟩

@[simp] theorem modifyFrame_eq_ok {g : Frame → Frame} :
    modifyFrame g w = .ok u w'
      ↔ w' = match w.frames with
        | [] => w
        | top :: more => { w with frames := g top :: more } :=
  Action.modify_eq_ok

/-! ## The end of a run -/

/-- Drops the innermost loop, which has ended, and its level. -/
def dropLoop (outer : List Loop) : Action Walk Unit := do
  modifyFrame fun f => { f with loops := outer }
  popLevel

/-- Asks the loop on top of the stack, at the end of a run of the loop of `parent`.  `stray` is done if
    there is none, and `outward` if the loop ends the run that it is in. -/
def askLoop (stray : Action Walk Unit) (parent : NodeId) (outward : Action Walk Unit) :
    Action Walk Unit := do
  match (← get).frames with
  | [] => pure ()
  | f :: _ =>
    match f.loops with
    | [] => stray
    | l :: outer =>
      let (more, l) ← turn f l
      if more then modifyFrame fun f => { f with loops := l :: outer }
      else
        dropLoop outer
        if cascades (← get).space.tree outer parent then outward

/-- `closeLoops`, with another step in the place of the failure for a run whose loop is not on the
    stack. -/
def closeLoopsOr (stray : NodeId → Action Walk Unit) (o : Options) : List NodeId → Action Walk Unit
  | [] => pure ()
  | parent :: parents => do
    let t := (← get).space.tree
    if t.name parent == "repeat" then
      if (t.computed parent).seq = some 0 then pushLevel else completeLevel o
      askLoop (stray parent) parent (closeLoopsOr stray o parents)

/-- Fails for the loop of a node, which is not on the stack. -/
def strayLoop (parent : NodeId) : Action Walk Unit := do
  .fail (.strayLoopEnd ((← get).space.tree.describe parent))

theorem closeLoops_eq (o : Options) (parents : List NodeId) :
    closeLoops o parents = closeLoopsOr strayLoop o parents := by
  induction parents with
  | nil => rfl
  | cons parent parents ih =>
    unfold closeLoops closeLoopsOr askLoop
    rw [ih]
    rfl

/-- The end of a run that is not one of a loop. -/
theorem closeLoops_of_ne {parent : NodeId} {parents : List NodeId} (hname : w.space.tree.name parent ≠ "repeat") :
    closeLoops o (parent :: parents) w = .ok () w := by
  have hn : ¬ (w.space.tree.name parent == "repeat") = true := fun he => hname (eq_of_beq he)
  rw [closeLoops, Action.get_bind]
  simp only [hn]
  rfl

theorem closeLoops_eq_ok_of_ne {parent : NodeId} {parents : List NodeId}
    (hname : w.space.tree.name parent ≠ "repeat")
    (h : closeLoops o (parent :: parents) w = .ok u w') : w' = w := by
  rw [closeLoops_of_ne hname] at h
  cases h
  rfl

/-- The end of a run of a loop. -/
theorem closeLoops_cons_ok {parent : NodeId} {parents : List NodeId}
    (hname : w.space.tree.name parent = "repeat") :
    closeLoops o (parent :: parents) w = .ok u w'
      ↔ ∃ u₁ w₁, (if (w.space.tree.computed parent).seq = some 0 then pushLevel else completeLevel o) w
          = .ok u₁ w₁ ∧ askLoop (strayLoop parent) parent (closeLoops o parents) w₁ = .ok u w' := by
  rw [closeLoops_eq, closeLoops_eq, closeLoopsOr, Action.get_bind_eq_ok]
  simp only [hname, BEq.rfl, if_true]
  rw [Action.ite_bind, Action.bind_eq_ok]

/-- Once what waits is written up at the end of a run of a loop, the loop is asked. -/
theorem closeLoops_of_level {parent : NodeId} {parents : List NodeId} (hname : w.space.tree.name parent = "repeat")
    (hlevel : (if (w.space.tree.computed parent).seq = some 0 then pushLevel else completeLevel o) w = .ok u w₁) :
    closeLoops o (parent :: parents) w = askLoop (strayLoop parent) parent (closeLoops o parents) w₁ := by
  rw [closeLoops_eq, closeLoops_eq, closeLoopsOr, Action.get_bind]
  simp only [hname, BEq.rfl, if_true]
  rw [Action.ite_bind, Action.bind_of_ok hlevel]

/-! ## What a loop says -/

section

variable {stray outward : Action Walk Unit} {parent : NodeId} {f : Frame} {more : List Frame} {l l' : Loop}
  {outer : List Loop} (hf : w.frames = f :: more)

include hf

theorem askLoop_of_nil (hloops : f.loops = []) : askLoop stray parent outward w = stray w := by
  rw [askLoop, Action.get_bind]
  simp only [hf, hloops]

variable (hloops : f.loops = l :: outer)

include hloops

theorem askLoop_of_error {e : Error} (ht : turn f l w = .error e w₁) :
    askLoop stray parent outward w = .error e w₁ := by
  rw [askLoop, Action.get_bind]
  simp only [hf, hloops]
  rw [Action.bind_of_error ht]

theorem askLoop_of_goesOn (ht : turn f l w = .ok (true, l') w₁) :
    askLoop stray parent outward w = modifyFrame (fun f => { f with loops := l' :: outer }) w₁ := by
  rw [askLoop, Action.get_bind]
  simp only [hf, hloops]
  rw [Action.bind_of_ok ht]
  rfl

theorem askLoop_of_ends (ht : turn f l w = .ok (false, l') w₁) (hd : dropLoop outer w₁ = .ok u w') :
    askLoop stray parent outward w = if cascades w'.space.tree outer parent then outward w' else .ok () w' := by
  rw [askLoop, Action.get_bind]
  simp only [hf, hloops]
  rw [Action.bind_of_ok ht]
  simp only [Bool.false_eq_true, if_false]
  rw [Action.bind_of_ok hd, Action.get_bind]
  split <;> rfl

end

end Stencil.Walk
