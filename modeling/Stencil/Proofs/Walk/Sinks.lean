/-
  No output is lost, and no lazy field.

  Between the opening of an output and its end, what its log opens, it closes: each level that is opened is
  closed, and each field that is left to wait is written again, once, before its level is closed
  (`Settled`).  In the middle of a walk, what is still to be closed are the levels of the sink
  (`Unsettled`, `Pending`).

  At the end of a walk, each output that has been opened has been handed out, in turn (`Handed`).
-/
import Stencil.Proofs.Walk.Log
import Stencil.Proofs.Walk.Rounds

set_option autoImplicit false

namespace Stencil

/-! ## Settled events -/

/-- Levels are closed in the order in which they nest, and each field that is left to wait is written again
    before the level is closed. -/
inductive Settled : List Event → Prop
  | nil : Settled []
  | append {es es' : List Event} : Settled es → Settled es' → Settled (es ++ es')
  | level {es : List Event} : Settled es → Settled (.pushed :: es ++ [.popped []])
  | field {w : Waiting} {es : List Event} : Settled es → Settled (.queued w :: es ++ [.replayed w])

/-- Events after which some levels are open, the innermost first, with fields that wait on them. -/
inductive Unsettled : List (List Waiting) → List Event → Prop
  | nil {es : List Event} (h : Settled es) : Unsettled [] es
  | level {ls : List (List Waiting)} {es es' : List Event} (before : Unsettled ls es)
      (h : Settled es') : Unsettled ([] :: ls) (es ++ .pushed :: es')
  | field {w : Waiting} {l : List Waiting} {ls : List (List Waiting)} {es es' : List Event}
      (before : Unsettled (l :: ls) es) (h : Settled es') :
      Unsettled ((w :: l) :: ls) (es ++ .queued w :: es')

/-- What closing levels logs: the fields that wait are written again, and then the level is closed. -/
def closing (ls : List (List Waiting)) : List Event :=
  ls.flatMap fun l => l.map Event.replayed ++ [.popped []]

namespace Unsettled

variable {w : Waiting} {l : List Waiting} {ls : List (List Waiting)} {es es' : List Event}

theorem settled (h : Unsettled [] es) : Settled es := by
  cases h with
  | nil h => exact h

theorem append (h : Unsettled ls es) (h' : Settled es') : Unsettled ls (es ++ es') := by
  cases h with
  | nil h => exact .nil (h.append h')
  | level before h =>
    rw [List.append_assoc, List.cons_append]
    exact .level before (h.append h')
  | field before h =>
    rw [List.append_assoc, List.cons_append]
    exact .field before (h.append h')

theorem push (h : Unsettled ls es) : Unsettled ([] :: ls) (es ++ [.pushed]) := .level h .nil

theorem queue (h : Unsettled (l :: ls) es) : Unsettled ((w :: l) :: ls) (es ++ [.queued w]) :=
  .field h .nil

theorem pop (h : Unsettled ([] :: ls) es) : Unsettled ls (es ++ [.popped []]) := by
  cases h with
  | level before h =>
    rw [List.append_assoc]
    exact before.append h.level

theorem replay (h : Unsettled ((w :: l) :: ls) es) : Unsettled (l :: ls) (es ++ [.replayed w]) := by
  cases h with
  | field before h =>
    rw [List.append_assoc]
    exact before.append h.field

/-- Everything that waits on the innermost level is written again. -/
theorem complete (h : Unsettled (l :: ls) es) :
    Unsettled ([] :: ls) (es ++ l.map Event.replayed) := by
  induction l generalizing es with
  | nil =>
    rw [List.map_nil, List.append_nil]
    exact h
  | cons w l ih =>
    rw [List.map_cons, List.append_cons]
    exact ih h.replay

theorem close (h : Unsettled ls es) : Settled (es ++ closing ls) := by
  induction ls generalizing es with
  | nil =>
    rw [closing, List.flatMap_nil, List.append_nil]
    exact h.settled
  | cons l ls ih =>
    rw [closing, List.flatMap_cons, ← List.append_assoc, ← List.append_assoc]
    exact ih h.complete.pop

end Unsettled

/-! ## What fields log -/

namespace Logged

variable {o : Options} {files : Files} {j j' : Job} {u : Unit} {es : List Event}

theorem replay_ok {ws : List Waiting} (h : (replay o files ws).Ok j u j' es) :
    es = ws.map Event.replayed := by
  induction ws generalizing j es with
  | nil => exact (pure_ok.mp h).2.2
  | cons w ws ih =>
    unfold replay at h
    obtain ⟨_, j₁, -, h⟩ := lift_bind_ok.mp h
    obtain ⟨_, j₂, -, h⟩ := lift_bind_ok.mp h
    obtain ⟨es', hrest, rfl⟩ := emit_bind_ok.mp h
    rw [ih hrest]
    rfl

theorem writeChunk_ok (h : (writeChunk o files).Ok j u j' es) :
    es = (j.sink.levels.headD []).map Event.replayed :=
  replay_ok (get_bind_ok.mp h)

theorem closeLevels_ok {n : Nat} (hwf : j.space.tree.WellFormed) (hn : j.sink.levels.length = n)
    (h : (closeLevels o files n).Ok j u j' es) : es = closing j.sink.levels := by
  induction n generalizing j es with
  | zero =>
    rw [List.length_eq_zero_iff.mp hn]
    exact (pure_ok.mp h).2.2
  | succ n ih =>
    unfold closeLevels at h
    obtain ⟨_, j₁, es₁, es₂, h₁, hrest, rfl⟩ := bind_ok.mp h
    replace hrest := get_bind_ok.mp hrest
    obtain ⟨_, j₂, h₂, hrest⟩ := lift_bind_ok.mp hrest
    obtain ⟨es₃, hrest', rfl⟩ := emit_bind_ok.mp hrest
    have hrun := h₁.1
    rw [run_writeChunk] at hrun
    have hc := Job.completed_writeChunk hwf hrun
    rw [writeChunk_ok h₁]
    obtain rfl := Action.modify_eq_ok.mp h₂
    cases hl : j.sink.levels with
    | nil =>
      rw [hl] at hn
      cases hn
    | cons l ls =>
      have hl₁ := hc.levels
      simp only [hl] at hl₁
      have hls : ({ j₁ with sink := j₁.sink.pop } : Job).sink.levels = ls := by
        show j₁.sink.levels.tail = ls
        rw [hl₁]
        rfl
      rw [hl] at hn
      rw [ih (j := { j₁ with sink := j₁.sink.pop }) hc.tree.wellFormed
        (by rw [hls]; exact Nat.succ.inj hn) hrest', hls, hl₁]
      exact (List.append_assoc ..).symm

theorem closeAll_ok (hwf : j.space.tree.WellFormed) (h : (closeAll o files).Ok j u j' es) :
    es = closing j.sink.levels :=
  closeLevels_ok hwf rfl (get_bind_ok.mp h)

/-- A field that waits is queued. -/
theorem setData_ok {item : NodeId} (hwf : j.space.tree.WellFormed)
    (h : (setData o files item).Ok j u j' es) :
    es = [] ∧ j'.sink.levels = j.sink.levels
      ∨ ∃ w l ls, j.sink.levels = l :: ls ∧ j'.sink.levels = (w :: l) :: ls ∧ es = [.queued w] := by
  rw [setData] at h
  replace h := get_bind_ok.mp h
  dsimp only at h
  replace h := get_bind_ok.mp h
  obtain ⟨_, j₁, h₁, h'⟩ := lift_bind_ok.mp h
  obtain ⟨_, j₂, h₂, hrest⟩ := lift_bind_ok.mp h'
  obtain rfl := Action.modify_eq_ok.mp h₁
  have hw := Job.wrote_write (j := { j with sink := j.sink.flush }) hwf h₂
  have hlevels := hw.levels.trans (levels_flush j.sink)
  split at hrest
  · replace hrest := get_bind_ok.mp hrest
    replace hrest := get_bind_ok.mp hrest
    cases hl : j₂.sink.levels with
    | nil =>
      simp only [hl] at hrest
      exact (Action.fail_eq_ok.mp (lift_ok.mp hrest).1).elim
    | cons l ls =>
      simp only [hl] at hrest
      obtain ⟨_, j₃, h₃, hq⟩ := lift_bind_ok.mp hrest
      obtain ⟨rfl, rfl⟩ := emit_ok.mp hq
      obtain rfl := Action.modify_eq_ok.mp h₃
      exact .inr ⟨_, l, ls, hlevels.symm.trans hl, rfl, rfl⟩
  · obtain ⟨-, rfl, rfl⟩ := pure_ok.mp hrest
    exact .inl ⟨rfl, hlevels⟩

end Logged

end Stencil
