/-
  Asking the loops around a run, one after the other.

  At the end of a run, what waits is written up and the loop of the run is asked (`Asking`).  If it ends and
  nothing is behind it, the run that it stands in has ended, too, and so on outwards.

    * What one such step keeps holds wherever a loop is asked (`RunEnded.asks_induct`), and it can be told
      from it what holds when all is asked (`RunEnded.closeLoops_induct`).
    * The first loop that goes on is the last one that is asked (`closeLoops_of_asks`).
-/
import Stencil.Proofs.Walk.Position

set_option autoImplicit false

namespace Stencil.Walk

open Loop.Turn (Continues Ends)

variable {parents : List NodeId} {root p q a : NodeId} {f g : Frame} {more : List Frame}
  {w w₁ w₂ w₃ w' : Walk} {o : Options} {key : String} {outer : List Loop} {l l' : Loop} {u : Unit}
  {s : Loop.Turn}

/-- At the end of a run in the state `w`, the loop of the run is about to be asked, in the state `w₁`. -/
structure Asking (o : Options) (w : Walk) (f : Frame) (more : List Frame) (root p q : NodeId) (l : Loop)
    (outer : List Loop) (w₁ : Walk) : Prop where
  name : w.space.tree.name p = "repeat"
  level : (if (w.space.tree.computed p).seq = some 0 then pushLevel else completeLevel o) w = .ok () w₁
  up : WrittenUp w w₁
  atEnd : AtLoopEnd w₁ f more root p q l outer

theorem RunEnded.asking (h : RunEnded w f more root p key parents)
    (hname : w.space.tree.name p = "repeat") (hloops : f.loops = l :: outer)
    (hlevel : (if (w.space.tree.computed p).seq = some 0 then pushLevel else completeLevel o) w
      = .ok () w₁) : ∃ q, Asking o w f more root p q l outer w₁ := by
  obtain ⟨hup, -⟩ := writtenUp h.wellFormed hlevel
  obtain ⟨q, hat⟩ := h.atLoopEnd hname hloops hup
  exact ⟨q, hname, hlevel, hup, hat⟩

/-- A loop that has been asked ends, and leads outward. -/
structure EndsOutward (w₁ : Walk) (f : Frame) (more : List Frame) (p : NodeId) (l : Loop) (outer : List Loop)
    (s : Loop.Turn) (w₂ w₃ : Walk) : Prop where
  turn : turn f l w₁ = .ok (false, s.loop) w₂
  turned : Turned w₁ f more s w₂
  ends : Ends ⟨l, w₁.space.tree, w₁.feedOf f l, f.scan⟩ s
  dropped : dropLoop outer w₂ = .ok () w₃
  cascades : cascades w₃.space.tree outer p = true

/-- What holds where a run has ended, and is kept when the loop of the run ends and leads outward, holds where
    a loop is asked. -/
theorem RunEnded.asks_induct {P : Walk → Frame → NodeId → List NodeId → Prop}
    (hrun : RunEnded w f more root p key parents) (hP : P w f p parents) (h : Asks o w parents a w')
    (outward : ∀ {w f p q key parents l outer w₁ s w₂ w₃},
      RunEnded w f more root p key (p :: parents) → P w f p (p :: parents) →
      Asking o w f more root p q l outer w₁ → EndsOutward w₁ f more p l outer s w₂ w₃ →
      P w₃ { f with scan := s.scan, loops := outer } q parents) :
    ∃ w₀ g key ps, RunEnded w₀ g more root a key (a :: ps) ∧ P w₀ g a (a :: ps)
      ∧ w'.frames = g :: more
      ∧ ∀ l outer, g.loops = l :: outer → ∃ q, Asking o w₀ g more root a q l outer w' := by
  induction h generalizing f p key with
  | @here w w₁ parent parents hname hlevel =>
    obtain ⟨rfl, -⟩ := List.cons.inj hrun.parents
    obtain ⟨hup, -⟩ := writtenUp hrun.wellFormed hlevel
    exact ⟨w, f, key, parents, hrun, hP, by rw [hup.rest]; exact hrun.frames,
      fun l outer hloops => hrun.asking hname hloops hlevel⟩
  | @outward w w₁ w₂ w₃ w' parent a parents f' more' l l' outer hname hlevel hframes hloops hended
      hdropped hcas _ ih =>
    obtain ⟨rfl, -⟩ := List.cons.inj hrun.parents
    obtain ⟨hup, -⟩ := writtenUp hrun.wellFormed hlevel
    have hf : w₁.frames = f :: more := by rw [hup.rest]; exact hrun.frames
    rw [hf] at hframes
    obtain ⟨rfl, rfl⟩ := List.cons.inj hframes
    obtain ⟨q, hask⟩ := hrun.asking hname hloops hlevel
    obtain ⟨s, rfl, hturn, hends⟩ := hask.atEnd.turned hended
    exact ih (hrun.outward hup hask.atEnd hturn hends hdropped hcas)
      (outward hrun hP hask ⟨hended, hturn, hends, hdropped, hcas⟩)

/-- What holds when all loops around a run have been asked can be told from what holds where a run has ended:
    it may be the end of a run in a group, or one of a loop that goes on, or that ends. -/
theorem RunEnded.closeLoops_induct {P : Walk → Frame → NodeId → List NodeId → Prop} {Q : Walk → Prop}
    (hrun : RunEnded w f more root p key parents) (hP : P w f p parents)
    (h : closeLoops o parents w = .ok u w')
    (outward : ∀ {w f p q key parents l outer w₁ s w₂ w₃},
      RunEnded w f more root p key (p :: parents) → P w f p (p :: parents) →
      Asking o w f more root p q l outer w₁ → EndsOutward w₁ f more p l outer s w₂ w₃ →
      P w₃ { f with scan := s.scan, loops := outer } q parents)
    (group : ∀ {w f p key parents}, RunEnded w f more root p key parents → P w f p parents →
      w.space.tree.name p ≠ "repeat" → Q w)
    (goesOn : ∀ {w f p q key parents l outer w₁ s w₂}, RunEnded w f more root p key (p :: parents) →
      P w f p (p :: parents) → Asking o w f more root p q l outer w₁ →
      turn f l w₁ = .ok (true, s.loop) w₂ → Turned w₁ f more s w₂ →
      Continues ⟨l, w₁.space.tree, w₁.feedOf f l, f.scan⟩ q s →
      Q { w₂ with frames := { f with scan := s.scan, loops := s.loop :: outer } :: more })
    (ends : ∀ {w f p q key parents l outer w₁ s w₂ w₃}, RunEnded w f more root p key (p :: parents) →
      P w f p (p :: parents) → Asking o w f more root p q l outer w₁ →
      turn f l w₁ = .ok (false, s.loop) w₂ → Turned w₁ f more s w₂ →
      Ends ⟨l, w₁.space.tree, w₁.feedOf f l, f.scan⟩ s → dropLoop outer w₂ = .ok () w₃ →
      ¬ cascades w₃.space.tree outer p = true → Q w₃) : Q w' := by
  induction parents generalizing w f p key with
  | nil => cases hrun.parents
  | cons parent parents ih =>
    obtain ⟨rfl, -⟩ := List.cons.inj hrun.parents
    by_cases hname : w.space.tree.name parent = "repeat"
    · obtain ⟨_, w₁, h₁, h⟩ := (closeLoops_cons_ok hname).mp h
      obtain ⟨hup, -⟩ := writtenUp hrun.wellFormed h₁
      have hf₁ : w₁.frames = f :: more := by rw [hup.rest]; exact hrun.frames
      rw [askLoop, Action.get_bind_eq_ok] at h
      simp only [hf₁] at h
      cases hloops : f.loops with
      | nil =>
        simp only [hloops] at h
        rw [strayLoop, Action.get_bind_eq_ok] at h
        exact (Action.fail_eq_ok.mp h).elim
      | cons l outer =>
        simp only [hloops] at h
        obtain ⟨⟨next, l'⟩, w₂, h₂, h⟩ := Action.bind_eq_ok.mp h
        obtain ⟨q, hask⟩ := hrun.asking hname hloops h₁
        obtain ⟨s, rfl, hturn, hstep⟩ := hask.atEnd.turned h₂
        cases next with
        | true =>
          have hw := modifyFrame_eq_ok.mp h
          simp only [hturn.frames] at hw
          subst hw
          exact goesOn hrun hP hask h₂ hturn hstep
        | false =>
          obtain ⟨_, w₃, h₃, h⟩ := Action.bind_eq_ok.mp h
          rw [Action.get_bind_eq_ok] at h
          by_cases hcas : cascades w₃.space.tree outer parent = true
          · simp only [hcas, if_true] at h
            exact ih (hrun.outward hup hask.atEnd hturn hstep h₃ hcas)
              (outward hrun hP hask ⟨h₂, hturn, hstep, h₃, hcas⟩) h
          · simp only [hcas] at h
            obtain ⟨-, rfl⟩ := Action.pure_eq_ok.mp h
            exact ends hrun hP hask h₂ hturn hstep h₃ hcas
    · obtain rfl := closeLoops_eq_ok_of_ne hname h
      exact group hrun hP hname

/-- The first loop that goes on is the last one that is asked. -/
theorem closeLoops_of_asks (h : Asks o w parents a w₁) (hf : w₁.frames = f :: more)
    (hloops : f.loops = l :: outer) (ht : turn f l w₁ = .ok (true, l') w₂) :
    closeLoops o parents w = modifyFrame (fun f => { f with loops := l' :: outer }) w₂ := by
  induction h with
  | here hname hlevel => rw [closeLoops_of_level hname hlevel, askLoop_of_goesOn hf hloops ht]
  | outward hname hlevel hframes hloops' hended hdropped hcas _ ih =>
    rw [closeLoops_of_level hname hlevel, askLoop_of_ends hframes hloops' hended hdropped, if_pos hcas]
    exact ih hf ht

end Stencil.Walk
