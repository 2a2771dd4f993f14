/-
  Keys and loops mirror the tree.

  The key of a visit and the loops that run are kept apart from the tree, but they say what the tree says:
  the names and the loops above the node that is visited (`position_of_round`).  So the loop that is asked
  at the end of a run is the one whose run has ended, and what is done if no loop is on the stack does not
  matter (`closeLoopsOr_eq`).
-/
import Stencil.Proofs.Walk.Rounds

set_option autoImplicit false

namespace Stencil.Walk

open Stencil.Tree (Inner)
open Loop.Turn (Ends)

variable {t : Tree} {parents : List NodeId} {root p n : NodeId} {r : Run} {f g : Frame}
  {more : List Frame} {w w₁ w' : Walk} {o : Options} {key : String} {outer : List Loop} {l : Loop}
  {stray : NodeId → Action Walk Unit}

/-! ## What a round takes up -/

/-- In the state `w`, the next round takes up the run `r` of the frame `g`; it does so in the state
    `w'`. -/
def TakesUp (o : Options) (w : Walk) (g : Frame) (r : Run) (w' : Walk) : Prop :=
  ∃ w₁ f more, rotate o w = .ok () w₁ ∧ w₁.frames = f :: more ∧ takeRun f = some (r, g)
    ∧ w' = { w₁ with frames := g :: more }

/-- With a run that is taken up, a round visits the next sibling, or it asks the loops around the run. -/
theorem round_of_takesUp (h : TakesUp o w g r w') :
    round o w = (match r.next with
      | some n => advance o g r n
      | none => do
        closeLoops o (w'.space.tree.ancestors r.first)
        return .goOn : Action Walk Progress) w' := by
  obtain ⟨w₁, f, more, hr, hf, ht, rfl⟩ := h
  unfold round
  rw [Action.bind_of_ok hr, Action.get_bind]
  simp only [hf, ht]
  cases r.next <;> rfl

/-! ## Asking loops -/

/-- Asking the loops around a run that has ended in the state `w`, `closeLoops` comes to the loop of
    `parent`; it does so in the state `w'`. -/
inductive Asks (o : Options) : Walk → List NodeId → NodeId → Walk → Prop
  | here {w w₁ : Walk} {parent : NodeId} {parents : List NodeId}
      (name : w.space.tree.name parent = "repeat")
      (level : (if (w.space.tree.computed parent).seq = some 0 then pushLevel else completeLevel o) w
        = .ok () w₁) :
      Asks o w (parent :: parents) parent w₁
  | outward {w w₁ w₂ w₃ w' : Walk} {parent a : NodeId} {parents : List NodeId} {f : Frame}
      {more : List Frame} {l l' : Loop} {outer : List Loop}
      (name : w.space.tree.name parent = "repeat")
      (level : (if (w.space.tree.computed parent).seq = some 0 then pushLevel else completeLevel o) w
        = .ok () w₁)
      (frames : w₁.frames = f :: more) (loops : f.loops = l :: outer)
      (ended : turn f l w₁ = .ok (false, l') w₂) (dropped : dropLoop outer w₂ = .ok () w₃)
      (cascades : cascades w₃.space.tree outer parent = true)
      (further : Asks o w₃ parents a w') : Asks o w (parent :: parents) a w'

/-- At the end of a loop there is a loop on the stack, and it is that loop. -/
theorem RunEnded.exists_loop (h : RunEnded w f more root p key parents)
    (hname : w.space.tree.name p = "repeat") (hr : w.space.tree.name root ≠ "repeat") :
    ∃ l outer, f.loops = l :: outer := by
  have hne := h.standing.loops_ne_nil hname hr
  cases hl : f.loops with
  | nil => exact absurd hl hne
  | cons l outer => exact ⟨l, outer, rfl⟩

/-- The loop that is asked is the one whose run has ended. -/
theorem RunEnded.asks (h : RunEnded w f more root p key parents)
    (hr : w.space.tree.name root ≠ "repeat") {a : NodeId} (hasks : Asks o w parents a w') :
    ∃ g l outer, w'.frames = g :: more ∧ g.loops = l :: outer ∧ l.anchor = a := by
  induction hasks generalizing f p key with
  | @here w w₁ parent parents hname hlevel =>
    obtain ⟨rfl, -⟩ := List.cons.inj h.parents
    obtain ⟨hup, -⟩ := writtenUp h.wellFormed hlevel
    obtain ⟨l, outer, hl⟩ := h.exists_loop hname hr
    obtain ⟨q, hat⟩ := h.atLoopEnd hname hl hup
    exact ⟨f, l, outer, hat.frames, hl, hat.anchor⟩
  | @outward w w₁ w₂ w₃ w' parent a parents f' more' l l' outer hname hlevel hframes hloops hended
      hdropped hcas _ ih =>
    obtain ⟨rfl, -⟩ := List.cons.inj h.parents
    obtain ⟨hup, -⟩ := writtenUp h.wellFormed hlevel
    have hf : w₁.frames = f :: more := by rw [hup.rest]; exact h.frames
    rw [hf] at hframes
    obtain ⟨rfl, rfl⟩ := List.cons.inj hframes
    obtain ⟨q, hat⟩ := h.atLoopEnd hname hloops hup
    obtain ⟨s, rfl, hturn, hends⟩ := hat.turned hended
    have hout := h.outward hup hat hturn hends hdropped hcas
    refine ih hout ?_
    have htree : w₃.space.tree = w₁.space.tree := by
      rw [dropLoop_ok hturn hdropped]
      exact hturn.tree.trans (Ends.tree hends)
    rw [htree, (hup.tree.shape _ (Tree.trunk_inner h.wellFormed h.isRoot.live h.isRoot.parent?)).name
      .root]
    exact hr

/-- What is done for a run whose loop is not on the stack does not matter. -/
theorem RunEnded.closeLoopsOr_congr {stray' : NodeId → Action Walk Unit}
    (h : RunEnded w f more root p key parents) (hr : w.space.tree.name root ≠ "repeat") :
    closeLoopsOr stray o parents w = closeLoopsOr stray' o parents w := by
  induction parents generalizing w f p key with
  | nil => rfl
  | cons parent parents ih =>
    obtain ⟨rfl, -⟩ := List.cons.inj h.parents
    unfold closeLoopsOr
    rw [Action.get_bind, Action.get_bind]
    by_cases hname : w.space.tree.name parent = "repeat"
    · simp only [hname, BEq.rfl, if_true]
      rw [Action.ite_bind, Action.ite_bind]
      refine Action.bind_congr fun _ w₁ h₁ => ?_
      rw [askLoop, askLoop, Action.get_bind, Action.get_bind]
      obtain ⟨hup, -⟩ := writtenUp h.wellFormed h₁
      obtain ⟨l, outer, hl⟩ := h.exists_loop hname hr
      obtain ⟨q, hat⟩ := h.atLoopEnd hname hl hup
      simp only [hat.frames, hl]
      refine Action.bind_congr fun said w₂ h₂ => ?_
      obtain ⟨next, l'⟩ := said
      cases next with
      | true => rfl
      | false =>
        obtain ⟨s, rfl, hturn, hends⟩ := hat.turned h₂
        refine Action.bind_congr fun _ w₃ h₃ => ?_
        rw [Action.get_bind, Action.get_bind]
        by_cases hcas : cascades w₃.space.tree outer parent = true
        · simp only [hcas, if_true]
          refine ih (h.outward hup hat hturn hends h₃ hcas) ?_
          have htree : w₃.space.tree = w₁.space.tree := by
            have hw := dropLoop_ok hturn h₃
            rw [hw]
            exact hturn.tree.trans (Ends.tree hends)
          rw [htree, (hup.tree.shape _ (Tree.trunk_inner h.wellFormed h.isRoot.live
            h.isRoot.parent?)).name .root]
          exact hr
        · simp only [hcas]
          rfl
    · have hn : ¬ (w.space.tree.name parent == "repeat") = true := fun he => hname (eq_of_beq he)
      simp only [hn]
      rfl

/-! ## Positions -/

theorem Standing.between_append (hwf : t.WellFormed) (hr : t.parent? root = none)
    (hi : Inner t root p) : p :: t.ancestors p = between t p ++ [root] := by
  induction hi with
  | root =>
    rw [between_root hr, Tree.ancestors_of_root hr]
    rfl
  | @step q n _ hp _ ih => rw [hwf.ancestors_of_parent hp, ih, between_child hwf hp, List.cons_append]

/-- What a round takes up, it takes up where the tree says.  A node is visited under the key that the
    nodes above it make, up to the root of its document, and while the loops among them run.  And where
    the loops around a run are asked, each one is asked at the end of its own runs. -/
theorem position_of_round {s : Setup} (h : Reached o s w) (ht : TakesUp o w g r w') :
    ∃ root, rootOf (documents w') g = some root ∧ w'.space.tree.parent? root = none
      ∧ (∀ n, r.next = some n → round o w = advance o g r n w'
        ∧ ∃ below, w'.space.tree.ancestors n = below ++ [root]
          ∧ r.key = Standing.keyOf w'.space.tree below
          ∧ g.loops.map Loop.anchor = below.filter fun a => w'.space.tree.name a == "repeat")
      ∧ (r.next = none → w'.space.tree.name root ≠ "repeat" →
        let parents := w'.space.tree.ancestors r.first
        round o w = (do closeLoops o parents; return .goOn : Action Walk Progress) w'
        ∧ (∀ a w₂, Asks o w' parents a w₂ →
          ∃ g₂ more l outer, w₂.frames = g₂ :: more ∧ g₂.loops = l :: outer ∧ l.anchor = a)
        ∧ ∀ stray, closeLoopsOr stray o parents w' = closeLoops o parents w') := by
  have hround := round_of_takesUp ht
  obtain ⟨w₁, f, more, hrot, hf, htake, rfl⟩ := ht
  obtain ⟨roots, hc⟩ := h.coherent
  obtain ⟨hc₁, -, -⟩ := hc.rotate hrot
  have hstack := hc₁.stack
  rw [hf] at hstack
  obtain ⟨root, rs, rfl⟩ := hstack.roots_cons
  obtain ⟨hroot, -, -, -⟩ := hstack.head
  obtain ⟨hsame, -, p, hrun, -⟩ := hc₁.visiting hf htake
  have hstand := hrun.standing
  obtain ⟨_, hended⟩ := hc₁.runEnded hf htake
  refine ⟨root, (hsame.rootOf _).trans hstack.found, hroot.parent?, fun n hn => ⟨?_, ?_⟩,
    fun hn hname => ⟨?_, ?_, ?_⟩⟩
  · rw [hround, hn]
  · obtain ⟨hp, -⟩ := hrun.next n hn
    refine ⟨Standing.between w₁.space.tree p, ?_, ?_, ?_⟩
    · show w₁.space.tree.ancestors n = _
      rw [hc₁.wellFormed.ancestors_of_parent hp,
        Standing.between_append hc₁.wellFormed hroot.parent? hstand.inner]
    · exact hstand.key_eq hc₁.wellFormed hroot.parent?
    · exact hstand.anchors_eq hc₁.wellFormed hroot.parent?
  · rw [hround, hn]
  · intro a w₂ hasks
    obtain ⟨g₂, l, outer, hg⟩ := hended.asks hname hasks
    exact ⟨g₂, more, l, outer, hg⟩
  · intro stray
    rw [closeLoops_eq]
    exact hended.closeLoopsOr_congr hname

/-- In a loop in a group, there is one loop on the stack, and the key has two names. -/
theorem position_of_round_in_loop :
    let body : Element := .mk "nop" [] "" .none []
    let loop : Element := .mk "repeat" [("name", "b"), ("max", "2")] "" .none [body]
    let layout : Element := .mk "layout" [] "" .none [.mk "items" [("name", "a")] "" .none [loop]]
    let s : Setup := ⟨⟨layout, none, none⟩, [], none, .memory, .zero, .stored [], .empty⟩
    ∃ o w w' g r, Reached o s w ∧ TakesUp o w g r w' ∧ r.next = some 3 ∧ r.key = "a/b"
      ∧ ∃ below, w'.space.tree.ancestors 3 = below ++ [0] ∧ r.key = Standing.keyOf w'.space.tree below
        ∧ g.loops.map Loop.anchor = below.filter fun a => w'.space.tree.name a == "repeat" := by
  intro body loop layout s
  let o : Options := .standard ⟨2000, 1, 1, 0, 0, 0, 0⟩
  have hrun : Action.succeeds (start o ⟨0, none⟩ (begin s)) (fun _ w => Action.succeeds (round o w) fun _ w =>
      Action.succeeds (round o w) fun _ w => Action.succeeds (rotate o w) fun _ w₁ =>
        w₁.frames.head?.any fun f => (takeRun f).any fun (r, g) =>
          r.next == some 3 && r.key == "a/b" && rootOf (documents w₁) g == some 0) = true := by
    decide +kernel
  obtain ⟨_, w₁, h₁, hrun⟩ := Action.succeeds_iff.mp hrun
  obtain ⟨_, w₂, h₂, hrun⟩ := Action.succeeds_iff.mp hrun
  obtain ⟨_, w₃, h₃, hrun⟩ := Action.succeeds_iff.mp hrun
  obtain ⟨_, w₄, h₄, hrun⟩ := Action.succeeds_iff.mp hrun
  obtain ⟨f, hf, hrun⟩ := (Option.any_eq_true _ _).mp hrun
  obtain ⟨⟨r, g⟩, ht, hrun⟩ := (Option.any_eq_true _ _).mp hrun
  obtain ⟨more, hf⟩ := List.head?_eq_some_iff.mp hf
  simp only [Bool.and_eq_true, beq_iff_eq] at hrun
  obtain ⟨⟨hn, hk⟩, hroot⟩ := hrun
  have h : Reached o s w₃ := .round (.round (.start h₁) h₂) h₃
  have htakes : TakesUp o w₃ g r { w₄ with frames := g :: more } := ⟨w₄, f, more, h₄, hf, ht, rfl⟩
  obtain ⟨root, hroot', -, hvisit, -⟩ := position_of_round h htakes
  replace hroot' : rootOf (documents w₄) g = some root := hroot'
  rw [hroot] at hroot'
  cases hroot'
  obtain ⟨-, below, hb⟩ := hvisit 3 hn
  exact ⟨o, w₃, _, g, r, h, htakes, hn, hk, below, hb⟩

end Stencil.Walk
