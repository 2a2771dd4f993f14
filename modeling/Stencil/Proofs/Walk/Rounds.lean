/-
  What a round does.

  At the end of a run the loops around it are asked, the innermost first; behind that the walk of the
  document is between two runs (`Asked`).  A document is entered as a document of its own (`entered`), and
  what is left is given up (`left`).  So a round leads from one coherent state to another one
  (`Coherent.round`), and every state that a walk reaches is coherent (`Reached.coherent`).
-/
import Stencil.Proofs.Import.Splices
import Stencil.Proofs.Walk.Visits
import Stencil.Walk.Pull

set_option autoImplicit false

namespace Stencil.Walk

open Stencil.Tree (Under Inner KeepsShape Closed Keeps Refreshed)
open Loop (SameFeed)
open Loop.Turn (Continues Ends Advanced)

variable {t t' : Tree} {rs roots parents : List NodeId} {root p n : NodeId} {r : Run} {f g : Frame}
  {more : List Frame} {w w₁ w' : Walk} {o : Options} {key : String} {loops outer : List Loop}
  {l : Loop} {scan : List Position} {u : Unit} {k : Nat} {even : Prop}

/-! ## The end of a run -/

theorem repeating_cons (l : Loop) (ls : List Loop) :
    repeating (l :: ls) = repeating ls + if 2 ≤ l.count then 1 else 0 := by
  unfold repeating
  rw [List.filter_cons]
  by_cases h : 2 ≤ l.count
  · rw [if_pos h, if_pos (decide_eq_true h)]
    rfl
  · rw [if_neg h, if_neg (by rw [decide_eq_true_iff]; exact h)]
    rfl

/-- What is written up at the end of a run of a loop: the innermost level is complete, or a first level
    has been opened for the loop. -/
structure WrittenUp (w w' : Walk) : Prop where
  rest : w' = { w with space := w'.space, sink := w'.sink, depth := w'.depth }
  tree : Refreshed w.space.tree w'.space.tree

theorem writtenUp (hwf : w.space.tree.WellFormed) {seq : Option Nat}
    (h : (if seq = some 0 then pushLevel else completeLevel o) w = .ok u w') :
    WrittenUp w w'
      ∧ ∀ even k, Leveled even w k → Leveled even w' (k + if seq = some 0 then 1 else 0) := by
  by_cases hs : seq = some 0
  · rw [if_pos hs] at h
    rw [pushLevel_eq_ok.mp h]
    refine ⟨⟨rfl, .refl hwf⟩, fun even k hk => ?_⟩
    rw [if_pos hs]
    exact hk.push
  · rw [if_neg hs] at h
    have hd := levelDone hwf h
    refine ⟨⟨?_, hd.tree⟩, fun even k hk => ?_⟩
    · rw [hd.rest]
    · rw [if_neg hs]
      exact hd.leveled even k hk

/-- What asking the loops around a run does. -/
structure Asked (w : Walk) (f : Frame) (more : List Frame) (root : NodeId) (rs : List NodeId)
    (w' : Walk) : Prop where
  around : Around rs w.space.tree w'.space.tree
  steady : Steady w w'
  rotation : w'.rotation = w.rotation
  frame : ∃ g, w'.frames = g :: more ∧ SameFrame f g ∧ g.run = none
    ∧ Paused w'.space.tree root g.loops g.scan
    ∧ ∀ even k, Leveled even w (k + repeating f.loops) → Leveled even w' (k + repeating g.loops)

theorem Asked.trans (ha : Around rs w.space.tree w₁.space.tree) (hd : Steady w w₁)
    (hr : w₁.rotation = w.rotation) (hs : SameFrame f g)
    (hl : ∀ even k, Leveled even w (k + repeating f.loops) → Leveled even w₁ (k + repeating g.loops))
    (h : Asked w₁ g more root rs w') : Asked w f more root rs w' where
  around := ha.trans h.around
  steady := hd.trans h.steady
  rotation := h.rotation.trans hr
  frame := by
    obtain ⟨g', hf, hsame, hidle, hp, hlev⟩ := h.frame
    exact ⟨g', hf, hs.trans hsame, hidle, hp, fun even k hk => hlev even k (hl even k hk)⟩

theorem ancestors_of_keepsShape (hwf : t.WellFormed) (hwf' : t'.WellFormed)
    (hr : t.parent? root = none) (hk : KeepsShape (Inner t root) t t') (hi : Inner t root p) :
    t'.ancestors p = t.ancestors p := by
  induction hi with
  | root =>
    rw [Tree.ancestors_of_root hr, Tree.ancestors_of_root ((hk.parent? .root).trans hr)]
  | @step q n hq hp hn ih =>
    have hp' : t'.parent? n = some q := (hk.parent? (.step hq hp hn)).trans hp
    rw [hwf.ancestors_of_parent hp, hwf'.ancestors_of_parent hp', ih]

theorem cascades_iff :
    cascades t outer n = true ↔ outer ≠ [] ∧ t.nextSibling? n = none
      ∧ ∃ q, t.parent? n = some q ∧ t.name q = "repeat" := by
  unfold cascades
  rw [Bool.and_eq_true, Bool.and_eq_true, Option.isNone_iff_eq_none, Option.any_eq_true]
  cases outer <;> simp

/-- The level of a loop is there as soon as its second run has begun or the first one has ended. -/
theorem leveled_asked {seq : Option Nat} (hseq : seq = some (l.count - 1)) (hc : 1 ≤ l.count)
    (h : Leveled even w (k + repeating (l :: outer) + if seq = some 0 then 1 else 0)) :
    Leveled even w (k + repeating outer + 1) := by
  have he : k + repeating (l :: outer) + (if seq = some 0 then 1 else 0)
      = k + repeating outer + 1 := by
    rw [repeating_cons, hseq]
    by_cases h2 : 2 ≤ l.count
    · rw [if_pos h2, if_neg (by rw [Option.some.injEq]; omega)]
      rfl
    · rw [if_neg h2, if_pos (by rw [Option.some.injEq]; omega)]
      rfl
  rw [he] at h
  exact h

/-- A loop that goes on stands in its next run. -/
theorem paused_of_continues {s s' : Loop.Turn} (hwf : s.tree.WellFormed) (hl : s.tree.Live root)
    (hp : s.tree.parent? s.loop.anchor = some p) (hname : s.tree.name s.loop.anchor = "repeat")
    (hbody : s.loop.bodyKey = s.tree.keyPath s.loop.key s.loop.anchor)
    (hseq : (s.tree.computed s.loop.anchor).seq = some (s.loop.count - 1))
    (hs : Standing s.tree root p s.loop.key outer s.scan) (hc : Continues s p s') :
    Paused s'.tree root (s'.loop :: outer) s'.scan := by
  have hadv := hc.advanced
  obtain ⟨first, hscan, hpf⟩ := hc.scan
  rw [hscan]
  refine .at (q := s'.loop.anchor) ?_ hpf
  refine .loop (standing_of_advanced hwf hl hp hadv hs) hadv.parent (hadv.name.trans hname) ?_ rfl hc.key
    hc.bodyKey ?_ ?_
  · rw [hbody]
    unfold Tree.keyPath Tree.attr?
    rw [hadv.attrs]
  · rw [hc.seq, hc.count]
    split
    · rename_i h0
      rw [hseq, h0]
    · rfl
  · rw [hc.count]
    exact Nat.le_add_left 1 _

/-- A run of siblings below `p` has ended; `parents` are `p` and the nodes above. -/
structure RunEnded (w : Walk) (f : Frame) (more : List Frame) (root p : NodeId) (key : String)
    (parents : List NodeId) : Prop where
  wellFormed : w.space.tree.WellFormed
  isRoot : IsRoot w.space.tree root
  frames : w.frames = f :: more
  idle : f.run = none
  standing : Standing w.space.tree root p key f.loops f.scan
  parents : parents = p :: w.space.tree.ancestors p

/-- A run of the loop of `p`, a node below `q`, has ended, and the loop is about to be asked for one more
    run. -/
structure AtLoopEnd (w : Walk) (f : Frame) (more : List Frame) (root p q : NodeId) (l : Loop)
    (outer : List Loop) : Prop where
  wellFormed : w.space.tree.WellFormed
  isRoot : IsRoot w.space.tree root
  frames : w.frames = f :: more
  idle : f.run = none
  loops : f.loops = l :: outer
  anchor : l.anchor = p
  parent : w.space.tree.parent? p = some q
  name : w.space.tree.name p = "repeat"
  standing : Standing w.space.tree root q l.key outer f.scan
  bodyKey : l.bodyKey = w.space.tree.keyPath l.key p
  seq : (w.space.tree.computed p).seq = some (l.count - 1)
  started : 1 ≤ l.count

/-- Writing up what waits does not change where the walk stands. -/
theorem RunEnded.atLoopEnd (h : RunEnded w f more root p key parents)
    (hname : w.space.tree.name p = "repeat") (hloops : f.loops = l :: outer)
    (hup : WrittenUp w w₁) : ∃ q, AtLoopEnd w₁ f more root p q l outer := by
  have hroot := h.isRoot
  have hwf₁ := hup.tree.wellFormed
  have hshape := hup.tree.shape _ (Tree.trunk_inner h.wellFormed hroot.live hroot.parent?)
  have hname₁ : w₁.space.tree.name p = "repeat" := (hshape.name h.standing.inner).trans hname
  have hs₁ := h.standing.of_keepsShape h.wellFormed hwf₁ hroot.live hroot.parent? hshape
  rw [hloops] at hs₁
  obtain ⟨q, houter, hpq, hanchor, hbody, hseq, hstarted⟩ := hs₁.cases_repeat hname₁
  refine ⟨q, hwf₁, hroot.of_keepsShape hshape, ?_, h.idle, hloops, hanchor, hpq, hname₁, houter, hbody,
    hseq, hstarted⟩
  rw [hup.rest]
  exact h.frames

/-- What the loop says. -/
theorem AtLoopEnd.turned {q : NodeId} {l' : Loop} {next : Bool}
    (h : AtLoopEnd w f more root p q l outer) (ht : turn f l w = .ok (next, l') w') :
    ∃ s, l' = s.loop ∧ Turned w f more s w'
      ∧ if next then Continues ⟨l, w.space.tree, w.feedOf f l, f.scan⟩ q s
        else Ends ⟨l, w.space.tree, w.feedOf f l, f.scan⟩ s := by
  obtain ⟨s, hnext, rfl, rfl⟩ := turn_ok ht
  have hstep := Loop.Turn.next_ok (p := q) h.wellFormed (by rw [h.anchor]; exact h.parent) hnext
  have hfeed : SameFeed (w.feedOf f l) s.feed := by
    cases next with
    | true => exact hstep.feed
    | false => exact hstep.feed
  exact ⟨s, rfl, turned_afterTurn h.frames hfeed, hstep⟩

theorem dropLoop_ok {s : Loop.Turn} (ht : Turned w f more s w₁) (h : dropLoop outer w₁ = .ok u w') :
    w' = { w₁ with
      frames := { f with scan := s.scan, loops := outer } :: more
      sink := w₁.sink.map Sink.pop, depth := w₁.depth - 1 } := by
  obtain ⟨_, w₂, h₂, h⟩ := Action.bind_eq_ok.mp h
  have hw := modifyFrame_eq_ok.mp h₂
  simp only [ht.frames] at hw
  subst hw
  exact popLevel_eq_ok.mp h

/-- Behind a loop that has ended: where nothing follows, the walk stands at the end of the run that the
    loop is in. -/
theorem AtLoopEnd.standing_behind {q : NodeId} {s : Loop.Turn}
    (h : AtLoopEnd w f more root p q l outer)
    (he : Ends ⟨l, w.space.tree, w.feedOf f l, f.scan⟩ s)
    (hnone : w.space.tree.nextSibling? p = none) :
    Standing s.tree root q l.key outer s.scan := by
  have hscan : s.scan = f.scan := by
    rw [he.scan]
    unfold Loop.Turn.behind
    dsimp only
    rw [h.anchor, hnone]
  rw [he.tree, hscan]
  exact h.standing

/-- Behind a loop that has ended, the walk is between two runs, unless another loop has to be asked. -/
theorem AtLoopEnd.paused_behind {q : NodeId} {s : Loop.Turn}
    (h : AtLoopEnd w f more root p q l outer)
    (he : Ends ⟨l, w.space.tree, w.feedOf f l, f.scan⟩ s)
    (hcas : ¬ cascades w.space.tree outer p = true) : Paused s.tree root outer s.scan := by
  cases hsib : w.space.tree.nextSibling? p with
  | some next =>
    have hscan : s.scan = ⟨l.key, next⟩ :: f.scan := by
      rw [he.scan]
      unfold Loop.Turn.behind
      dsimp only
      rw [h.anchor, hsib]
    rw [he.tree, hscan]
    exact .at (q := q) h.standing (h.wellFormed.parent?_of_nextSibling? h.parent hsib)
  | none =>
    refine (h.standing_behind he hsib).paused ?_
    rw [he.tree]
    by_cases hq : w.space.tree.name q = "repeat"
    · exact .inr (Decidable.byContradiction fun hne =>
        hcas (cascades_iff.mpr ⟨hne, hsib, q, h.parent, hq⟩))
    · exact .inl hq

/-- The number of the run that has ended. -/
theorem RunEnded.seq_loop {q : NodeId} (h : RunEnded w f more root p key parents) (hup : WrittenUp w w₁)
    (hat : AtLoopEnd w₁ f more root p q l outer) : (w.space.tree.computed p).seq = some (l.count - 1) := by
  have htrunk := Tree.trunk_inner h.wellFormed h.isRoot.live h.isRoot.parent?
  rw [← (hup.tree.shape _ htrunk).seq h.standing.inner]
  exact hat.seq

/-- The loop that is asked has its level, as soon as what waits is written up. -/
theorem RunEnded.leveled_turned {q : NodeId} {s : Loop.Turn} {w₂ : Walk}
    (h : RunEnded w f more root p key parents) (hup : WrittenUp w w₁)
    (hlev : ∀ even k, Leveled even w k →
      Leveled even w₁ (k + if (w.space.tree.computed p).seq = some 0 then 1 else 0))
    (hat : AtLoopEnd w₁ f more root p q l outer) (ht : Turned w₁ f more s w₂)
    (hk : Leveled even w (k + repeating f.loops)) : Leveled even w₂ (k + repeating outer + 1) := by
  have hseq := h.seq_loop hup hat
  rw [hat.loops] at hk
  exact (leveled_asked hseq hat.started (hlev _ _ hk)).of_eq ht.depth ht.sink

/-- A loop that has ended and has nothing behind it ends the run that it is in. -/
theorem RunEnded.outward {q : NodeId} {s : Loop.Turn} {w₂ w₃ : Walk}
    (h : RunEnded w f more root p key (p :: parents)) (hup : WrittenUp w w₁)
    (hat : AtLoopEnd w₁ f more root p q l outer) (ht : Turned w₁ f more s w₂)
    (he : Ends ⟨l, w₁.space.tree, w₁.feedOf f l, f.scan⟩ s) (hd : dropLoop outer w₂ = .ok u w₃)
    (hcas : cascades w₃.space.tree outer p = true) :
    RunEnded w₃ { f with scan := s.scan, loops := outer } more root q l.key parents := by
  have hw₃ := dropLoop_ok ht hd
  have htree : w₃.space.tree = w₁.space.tree := by
    rw [hw₃]
    exact ht.tree.trans he.tree
  have hs := hat.standing_behind he (by rw [← htree]; exact (cascades_iff.mp hcas).2.1)
  rw [he.tree] at hs
  refine ⟨htree ▸ hat.wellFormed, htree ▸ hat.isRoot, by rw [hw₃], hat.idle, htree ▸ hs, ?_⟩
  -- the nodes around a loop do not change while what waits is written up
  have hroot := h.isRoot
  have htrunk := Tree.trunk_inner h.wellFormed hroot.live hroot.parent?
  have hshape := hup.tree.shape _ htrunk
  have hp : w.space.tree.parent? p = some q :=
    (hshape.parent? h.standing.inner).symm.trans hat.parent
  have hparents := (List.cons.inj h.parents).2
  rw [hparents, htree, h.wellFormed.ancestors_of_parent hp, ancestors_of_keepsShape h.wellFormed
    hup.tree.wellFormed hroot.parent? hshape (htrunk.up p q h.standing.inner hp)]

theorem asked_closeLoops (hrun : RunEnded w f more root p key parents) (hfresh : root ∉ rs)
    (h : closeLoops o parents w = .ok u w') : Asked w f more root rs w' := by
  induction parents generalizing w f p key with
  | nil => cases hrun.parents
  | cons parent parents ih =>
    obtain ⟨rfl, -⟩ := List.cons.inj hrun.parents
    have hwf := hrun.wellFormed
    by_cases hname : w.space.tree.name parent = "repeat"
    · obtain ⟨_, w₁, h₁, h⟩ := (closeLoops_cons_ok hname).mp h
      obtain ⟨hup, hlev₁⟩ := writtenUp hwf h₁
      have hf₁ : w₁.frames = f :: more := by rw [hup.rest]; exact hrun.frames
      rw [askLoop, Action.get_bind_eq_ok] at h
      simp only [hf₁] at h
      cases hloops : f.loops with
      | nil =>
        simp only [hloops] at h
        rw [strayLoop, Action.get_bind_eq_ok] at h
        exact (Action.fail_eq_ok.mp h).elim
      | cons l outer =>
        simp only [hloops] at h
        obtain ⟨⟨next, l'⟩, w₂, h₂, h⟩ := Action.bind_eq_ok.mp h
        obtain ⟨q, hat⟩ := hrun.atLoopEnd hname hloops hup
        obtain ⟨s, rfl, hturn, hstep⟩ := hat.turned h₂
        have hpa : w₁.space.tree.parent? l.anchor = some q := by rw [hat.anchor, hat.parent]
        have hlev₂ : ∀ even k, Leveled even w (k + repeating f.loops) →
            Leveled even w₂ (k + repeating outer + 1) :=
          fun _ _ hk => hrun.leveled_turned hup hlev₁ hat hturn hk
        have hsteady : Steady w w₂ := by
          refine .trans ?_ hturn.steady
          rw [hup.rest]
          exact ⟨rfl, rfl⟩
        have hrot : w₂.rotation = w.rotation := by
          rw [hturn.rotation, hup.rest]
        have hup' : Around rs w.space.tree w₁.space.tree := (quiet_of_refreshed hwf hup.tree).around hwf
        cases next with
        | true =>
          have hc : Continues _ q s := hstep
          have hw := modifyFrame_eq_ok.mp h
          simp only [hturn.frames] at hw
          subst hw
          refine ⟨hup'.trans ?_, ⟨hsteady.docs, hsteady.phase⟩, hrot, _, rfl, ⟨rfl, rfl, rfl⟩, hat.idle, ?_,
            fun even k hk => ?_⟩
          · show Around rs w₁.space.tree w₂.space.tree
            rw [hturn.tree]
            exact around_of_advanced hat.wellFormed hfresh hat.isRoot.parent? hat.standing.inner hpa
              hc.advanced
          · show Paused w₂.space.tree root (s.loop :: outer) s.scan
            rw [hturn.tree]
            exact paused_of_continues hat.wellFormed hat.isRoot.live hpa
              (by rw [hat.anchor]; exact hat.name) (by rw [hat.anchor]; exact hat.bodyKey)
              (by rw [hat.anchor]; exact hat.seq) hat.standing hc
          · rw [repeating_cons, if_pos (by rw [hc.count]; exact Nat.succ_le_succ hat.started)]
            exact (hlev₂ even k hk).of_eq rfl rfl
        | false =>
          have he : Ends _ s := hstep
          obtain ⟨_, w₃, h₃, h⟩ := Action.bind_eq_ok.mp h
          rw [Action.get_bind_eq_ok] at h
          have hw₃ := dropLoop_ok hturn h₃
          have htree : w₃.space.tree = w₁.space.tree := by
            rw [hw₃]
            exact hturn.tree.trans he.tree
          have hf₃ : w₃.frames = { f with scan := s.scan, loops := outer } :: more := by rw [hw₃]
          have hlev₃ : ∀ even k, Leveled even w (k + repeating f.loops) →
              Leveled even w₃ (k + repeating outer) := by
            intro even k hk
            rw [hw₃]
            exact (hlev₂ even k hk).pop.of_eq rfl rfl
          have hsteady₃ : Steady w w₃ := by
            rw [hw₃]
            exact ⟨hsteady.docs, hsteady.phase⟩
          have hrot₃ : w₃.rotation = w.rotation := by
            rw [hw₃]
            exact hrot
          rw [← htree] at hup'
          by_cases hcas : cascades w₃.space.tree outer parent = true
          · -- nothing is behind the loop, and it ends a run itself
            simp only [hcas, if_true] at h
            exact .trans (g := { f with scan := s.scan, loops := outer }) hup' hsteady₃ hrot₃
              ⟨rfl, rfl, rfl⟩ hlev₃ (ih (hrun.outward hup hat hturn he h₃ hcas) h)
          · simp only [hcas] at h
            obtain ⟨-, rfl⟩ := Action.pure_eq_ok.mp h
            refine ⟨hup', hsteady₃, hrot₃, _, hf₃, ⟨rfl, rfl, rfl⟩, hat.idle, ?_, hlev₃⟩
            rw [htree] at hcas ⊢
            have hp := hat.paused_behind he hcas
            rw [he.tree] at hp
            exact hp
    · obtain rfl := closeLoops_eq_ok_of_ne hname h
      exact ⟨(Quiet.refl hwf).around hwf, ⟨rfl, rfl⟩, rfl, f, hrun.frames, .refl f, hrun.idle,
        hrun.standing.paused (.inl hname), fun _ k hk => hk⟩

/-! ## Going into a document -/

theorem edited_numberLoops {P : NodeId → Prop} {ns : List NodeId} (hwf : t.WellFormed)
    (hc : Closed t P) (hns : ∀ n ∈ ns, ¬ P n) : Import.Edited P t (numberLoops k t ns).2 := by
  induction ns generalizing t k with
  | nil => exact .refl hwf hc
  | cons n ns ih =>
    have hns' : ∀ m ∈ ns, ¬ P m := fun m hm => hns m (List.mem_cons_of_mem _ hm)
    unfold numberLoops
    split
    · have he : Import.Edited P t (t.modifyComputed n fun c => { c with repeatId := some k }) :=
        .modify hwf hc (hns n List.mem_cons_self) (fun _ => rfl) fun _ => rfl
      exact he.trans (ih he.wellFormed (he.keeps.closed hc hwf he.wellFormed) hns')
    · exact ih hwf hc hns'

theorem around_of_spared (hwf : t.WellFormed) (hroot : IsRoot t root) (hfresh : root ∉ rs)
    (h : ∀ P, Closed t P → ¬ P root → Import.Spared (fun n => n = root) P t t') : Around rs t t' := by
  have hs := h _ Tree.closed_none fun hn => hn
  refine .of_keeps hwf hs.wellFormed hfresh hroot.parent? (fun r hr => ?_)
    fun P hc hP => (h P hc hP).keeps
  by_cases hne : r = root
  · subst hne
    exact ⟨(hs.parents r rfl).1, (hs.parents r rfl).2.trans hr.parent?⟩
  · have hk := (h _ (Tree.closed_document hwf hr.live hr.parent?)
      (Tree.not_under_root hroot.parent? fun he => hne he.symm)).keeps
    exact ⟨(hk r .self).1, (hk.parent? .self).trans hr.parent?⟩

/-- What going into a document does. -/
structure EnteredDocument (w : Walk) (rs : List NodeId) (e : Entry) (w' : Walk) : Prop where
  around : Around rs w.space.tree w'.space.tree
  isRoot : IsRoot w'.space.tree e.document.root
  steady : Steady w w'
  rotation : w'.rotation = w.rotation
  frame : ∃ g, w'.frames = g :: w.frames ∧ g.source = e.source ∧ g.seesSecondary = e.seesSecondary
    ∧ g.owned = (if e.owned then some e.document.root else none) ∧ g.loops = []
    ∧ Placed w'.space.tree e.document.root g
  leveled : ∀ even k, Leveled even w k → Leveled even w' (k + 1)

theorem enteredDocument {e : Entry} (hwf : w.space.tree.WellFormed)
    (hroot : IsRoot w.space.tree e.document.root) (hfresh : e.document.root ∉ rs)
    (h : enter o e w = .ok u w') : EnteredDocument w rs e w' := by
  rw [enter, Action.get_bind_eq_ok] at h
  obtain ⟨_, w₁, h₁, h⟩ := Action.bind_eq_ok.mp h
  obtain ⟨d, hd, rfl⟩ := onDesk_ok h₁
  have ha₁ : Around rs w.space.tree d.tree := around_of_spared hwf hroot hfresh
    fun P hc hP => Import.spared_resolve (d := ⟨w.space.tree, w.library⟩) hwf hroot.live hroot.parent?
      hc hP hd
  have hroot₁ := ha₁.isRoot _ hroot
  rw [Action.modify_bind_eq_ok] at h
  obtain ⟨_, w₂, h₂, h⟩ := Action.bind_eq_ok.mp h
  rw [pushLevel_eq_ok] at h₂
  have hw := Action.modify_eq_ok.mp h
  subst h₂
  have ha₂ : Around rs d.tree
      (numberLoops w.nextLoop d.tree (d.tree.descendants e.document.root)).2 :=
    around_of_edited ha₁.wellFormed hroot₁ hfresh fun P hc hP =>
      edited_numberLoops ha₁.wellFormed hc fun n hn hPn =>
        hP (hc.of_under (ha₁.wellFormed.mem_descendants.mp hn).1 hPn)
  dsimp only at hw
  generalize numberLoops w.nextLoop d.tree (d.tree.descendants e.document.root) = numbered at hw ha₂
  obtain ⟨next, t⟩ := numbered
  have hroot₂ : IsRoot t e.document.root := ha₂.isRoot _ hroot₁
  subst hw
  refine ⟨ha₁.trans ha₂, hroot₂, ⟨rfl, rfl⟩, rfl, ⟨_, rfl, rfl, rfl, rfl, rfl, ?_⟩, fun even k hk => ?_⟩
  · show Paused t e.document.root [] _
    dsimp only
    cases hf : t.firstChild? e.document.root with
    | none => exact .ended
    | some first => exact .at .top (ha₂.wellFormed.mem_children.mp (List.mem_of_head? hf))
  · have ht : Leveled even { w with space := { w.space with tree := t } } k := hk.of_eq rfl rfl
    exact ht.push.of_eq rfl rfl

/-! ## Runs -/

theorem takeRun_eq_none (h : takeRun f = none) : f.run = none ∧ f.scan = [] := by
  unfold takeRun at h
  split at h
  · cases h
  · cases h
  · rename_i hrun hscan
    exact ⟨hrun, hscan⟩

theorem takeRun_eq_some (h : takeRun f = some (r, g)) :
    f.run = some r ∧ g = { f with run := none }
      ∨ ∃ p scan, f.run = none ∧ f.scan = p :: scan ∧ r = ⟨p.key, p.node, some p.node, scan.length⟩
        ∧ g = { f with scan } := by
  unfold takeRun at h
  split at h
  · rename_i hrun
    cases h
    exact .inl ⟨hrun, rfl⟩
  · rename_i p scan hrun hscan
    cases h
    exact .inr ⟨p, scan, hrun, hscan, rfl, rfl⟩
  · cases h

/-- The run that is taken is one below a node of the document. -/
theorem Placed.running (hwf : t.WellFormed) (h : Placed t root f) (ht : takeRun f = some (r, g)) :
    (∃ p, Running t root p r g.loops g.scan) ∧ SameFrame f g ∧ g.run = none ∧ g.loops = f.loops := by
  unfold Placed at h
  rcases takeRun_eq_some ht with ⟨hrun, rfl⟩ | ⟨pos, scan, hrun, hscan, rfl, rfl⟩
  · rw [hrun] at h
    exact ⟨h, ⟨rfl, rfl, rfl⟩, rfl, rfl⟩
  · rw [hrun, hscan] at h
    refine ⟨?_, ⟨rfl, rfl, rfl⟩, hrun, rfl⟩
    show ∃ p, Running t root p _ f.loops scan
    dsimp only at h
    generalize f.loops = loops at h
    cases h with
    | @«at» q loops pos scan hs hp =>
      refine ⟨q, hs, hp, rfl, fun n hn => ?_⟩
      cases hn
      refine ⟨hp, fun hm => ?_⟩
      obtain ⟨-, -, -, hne⟩ := hwf.mem_followingSiblings hm
      exact hne rfl

/-- A document whose walk is over runs no loop. -/
theorem Placed.ended (h : Placed t root f) (ht : takeRun f = none) : f.loops = [] := by
  obtain ⟨hrun, hscan⟩ := takeRun_eq_none ht
  unfold Placed at h
  rw [hrun, hscan] at h
  dsimp only at h
  generalize f.loops = loops at h
  cases h
  rfl

theorem Visited.resume (h : Visited w f more root rs p r w₁) (hn : r.next = some n)
    (hr : resume r n w₁ = .ok u w') :
    w' = { w₁ with frames := w'.frames } ∧ ∃ g, w'.frames = g :: more ∧ SameFrame f g
      ∧ repeating g.loops = repeating f.loops ∧ Placed w'.space.tree root g := by
  obtain ⟨g, hf, hsame, hidle, hrep, hland⟩ := h.frame
  have hw := Action.modify_eq_ok.mp hr
  simp only [hf] at hw
  subst hw
  unfold Placed
  by_cases hb : g.scan.length = r.base
  · rw [if_pos hb]
    refine ⟨rfl, _, rfl, ⟨hsame.source, hsame.sees, hsame.owned⟩, hrep, p, ?_⟩
    cases hland with
    | here hrun => exact hrun.resume h.around.wellFormed hn
    | away hne => exact absurd hb hne
  · rw [if_neg hb]
    refine ⟨rfl, g, hf, hsame, hrep, ?_⟩
    rw [hidle]
    cases hland with
    | here hrun => exact absurd hrun.base.symm hb
    | away _ hp => exact hp

/-! ## The end of a document -/

theorem isRoot_of_release {d : NodeId} (hwf : t.WellFormed) (hl : t.Live root) (hd : IsRoot t d)
    (hne : d ≠ root) : IsRoot (t.release root) d := by
  have hr := hwf.released hl
  have hu : ¬ Under t root d := Tree.not_under_root hd.parent? hne
  exact ⟨(hr.live d).mpr ⟨hd.live, hu⟩, (hr.parent? d hu).trans hd.parent?⟩

/-- A document that is no longer walked may be given up. -/
theorem Coherent.release (h : Coherent even w roots) (hr : IsRoot w.space.tree root)
    (hfresh : root ∉ roots) (hdocs : root ∉ documents w) (hrot : w.rotation = none) :
    Coherent even { w with space := { w.space with tree := w.space.tree.release root } } roots where
  wellFormed := (h.wellFormed.released hr.live).wellFormed
  stack := by
    refine h.stack.transfer h.wellFormed (h.wellFormed.released hr.live).wellFormed fun r hm => ?_
    have hir := h.stack.isRoot hm
    have hc := Tree.closed_document h.wellFormed hir.live hir.parent?
    exact (hc.keeps_release h.wellFormed hr.live
      (Tree.not_under_root hr.parent? fun he => hfresh (he ▸ hm))).keepsShape fun _ hn => hn.under
  docs := fun d hm => isRoot_of_release h.wellFormed hr.live (h.docs d hm) fun he => hdocs (he ▸ hm)
  rotation := by
    intro n hn
    rw [show w.rotation = some n from hn] at hrot
    cases hrot
  leveled := h.leveled.of_eq rfl rfl
  phase := h.phase

/-- Leaving a document: its level is completed and closed, and it is given up if it has been read for its walk. -/
theorem leave_ok (hwf : w.space.tree.WellFormed) (hf : w.frames = f :: more) (h : Walk.leave o w = .ok u w') :
    ∃ w₁, completeLevel o w = .ok () w₁ ∧ LevelDone w w₁ ∧ w' = { w₁ with
      space := { w₁.space with tree := f.owned.elim w₁.space.tree w₁.space.tree.release }
      frames := more, sink := w₁.sink.map Sink.pop, depth := w₁.depth - 1 } := by
  obtain ⟨_, w₁, h₁, h⟩ := Action.bind_eq_ok.mp h
  obtain ⟨_, w₂, h₂, h⟩ := Action.bind_eq_ok.mp h
  rw [popLevel_eq_ok] at h₂
  subst h₂
  rw [Action.get_bind_eq_ok] at h
  have hd := levelDone hwf h₁
  have hf₁ : w₁.frames = f :: more := by rw [hd.rest]; exact hf
  refine ⟨w₁, h₁, hd, ?_⟩
  simp only [hf₁] at h
  rw [Action.set_bind_eq_ok] at h
  cases ho : f.owned with
  | none =>
    simp only [ho] at h
    obtain ⟨-, rfl⟩ := Action.pure_eq_ok.mp h
    rfl
  | some root =>
    simp only [ho] at h
    exact modifyTree_eq_ok.mp h

/-- A document has ended, and its level has been closed. -/
theorem Coherent.left (h : Coherent even w (root :: rs)) (hf : w.frames = f :: more) (hrun : takeRun f = none)
    (hrot : w.rotation = none) (h₁ : completeLevel o w = .ok u w₁) :
    Coherent even { w₁ with frames := more, sink := w₁.sink.map Sink.pop, depth := w₁.depth - 1 } rs := by
  have hd := levelDone h.wellFormed h₁
  have hq := quiet_of_refreshed h.wellFormed hd.tree
  have hdocs : documents w₁ = documents w := by rw [hd.rest]; rfl
  have hrot₁ : w₁.rotation = none := by rw [hd.rest]; exact hrot
  have hphase : w₁.phase = .running := by rw [hd.rest]; exact h.phase
  have hstack := h.stack
  rw [hf] at hstack
  have hlev : Leveled even w₁ (levelsOf more + 1) := by
    have hk := hd.leveled _ _ h.leveled
    rw [hf, levelsOf_cons, hstack.head.2.1.ended hrun] at hk
    exact hk
  refine ⟨hq.wellFormed, ?_, ?_, fun n hn => ?_, hlev.pop.of_eq rfl rfl, hphase⟩
  · show Stack w₁.space.tree (documents w₁) more rs
    rw [hdocs]
    exact hstack.tail.transfer h.wellFormed hq.wellFormed fun r hm => hq.shape r (hstack.tail.isRoot hm)
  · show ∀ d ∈ documents w₁, IsRoot w₁.space.tree d
    rw [hdocs]
    exact fun d hm => hq.isRoot (h.docs d hm)
  · rw [show w₁.rotation = some n from hn] at hrot₁
    cases hrot₁

theorem Coherent.leave (h : Coherent even w (root :: rs)) (hf : w.frames = f :: more) (hrun : takeRun f = none)
    (hrot : w.rotation = none) (hl : leave o w = .ok u w') : Coherent even w' rs := by
  obtain ⟨w₁, h₁, hd, rfl⟩ := leave_ok h.wellFormed hf hl
  have hstay := h.left hf hrun hrot h₁
  cases ho : f.owned with
  | none => exact hstay
  | some r' =>
    have hstack := h.stack
    rw [hf] at hstack
    obtain ⟨hroot, -, hfresh, howned⟩ := hstack.head
    obtain ⟨rfl, hnd⟩ := howned r' ho
    have hdocs : documents w₁ = documents w := by rw [hd.rest]; rfl
    refine hstay.release ((quiet_of_refreshed h.wellFormed hd.tree).isRoot hroot) hfresh ?_ ?_
    · show r' ∉ documents w₁
      rw [hdocs]
      exact hnd
    · show w₁.rotation = none
      rw [hd.rest]
      exact hrot

/-! ## Rounds -/

theorem levelsOf_replace (h : repeating g.loops = repeating f.loops) :
    levelsOf (g :: more) = levelsOf (f :: more) := by
  rw [levelsOf_cons, levelsOf_cons, h]

/-- A change off the trunks of the documents. -/
theorem Coherent.of_quiet (h : Coherent even w roots) (hq : Quiet w.space.tree w'.space.tree)
    (hd : Steady w w') (hf : w'.frames = w.frames) (hrot : w'.rotation = none)
    (hl : ∀ even k, Leveled even w k → Leveled even w' k) : Coherent even w' roots where
  wellFormed := hq.wellFormed
  stack := by
    rw [hd.docs, hf]
    exact h.stack.transfer h.wellFormed hq.wellFormed fun r hm => hq.shape r (h.stack.isRoot hm)
  docs := by
    rw [hd.docs]
    exact fun d hm => hq.isRoot (h.docs d hm)
  rotation := by
    intro n hn
    rw [hrot] at hn
    cases hn
  leveled := by
    rw [hf]
    exact hl _ _ h.leveled
  phase := hd.phase.trans h.phase

/-- Making the change of output that is due opens the sink of a `writer`. -/
theorem Coherent.rotate_ok (h : Coherent even w roots) (hr : Walk.rotate o w = .ok u w') :
    w' = w ∧ w.rotation = none
      ∨ ∃ n r f more, w.frames = f :: more ∧ SinkOpened r n { w with rotation := none } w' := by
  rw [Walk.rotate, Action.get_bind_eq_ok] at hr
  cases hrot : w.rotation with
  | none =>
    simp only [hrot] at hr
    obtain ⟨-, rfl⟩ := Action.pure_eq_ok.mp hr
    exact .inl ⟨rfl, rfl⟩
  | some n =>
    obtain ⟨-, r, hrm, hw⟩ := h.rotation n hrot
    cases hf : w.frames with
    | nil =>
      have hs := h.stack
      rw [hf] at hs
      cases hs
      cases hrm
    | cons f more =>
      simp only [hrot, hf] at hr
      rw [Action.set_bind_eq_ok] at hr
      have ho := sinkOpened (w := { w with frames := f :: more, rotation := none }) h.wellFormed hw hr
      exact .inr ⟨n, r, f, more, rfl, ho⟩

theorem Coherent.rotate (h : Coherent even w roots) (hr : Walk.rotate o w = .ok u w') :
    Coherent even w' roots ∧ w'.frames = w.frames ∧ w'.rotation = none := by
  rcases h.rotate_ok hr with ⟨rfl, hrot⟩ | ⟨n, r, f, more, -, ho⟩
  · exact ⟨h, rfl, hrot⟩
  · have hrest := ho.rest
    have hd : Steady w w' := by rw [hrest]; exact ⟨rfl, rfl⟩
    have hf : w'.frames = w.frames := by rw [hrest]
    have hrot : w'.rotation = none := by rw [hrest]
    exact ⟨h.of_quiet ho.step.quiet hd hf hrot fun _ k hk => ho.leveled (hk.of_eq rfl rfl), hf, hrot⟩

/-- The next run of the innermost document is taken. -/
theorem Coherent.visiting (h : Coherent even w (root :: rs)) (hf : w.frames = f :: more)
    (ht : takeRun f = some (r, g)) :
    SameFrame f g ∧ g.loops = f.loops ∧ ∃ p, Running w.space.tree root p r g.loops g.scan
      ∧ g.run = none := by
  have hs := h.stack
  rw [hf] at hs
  obtain ⟨-, hplaced, -⟩ := hs.head
  obtain ⟨⟨p, hp⟩, hsame, hidle, hloops⟩ := hplaced.running h.wellFormed ht
  exact ⟨hsame, hloops, p, hp, hidle⟩

/-- The run that is taken is about to end. -/
theorem Coherent.runEnded (h : Coherent even w (root :: rs)) (hf : w.frames = f :: more)
    (ht : takeRun f = some (r, g)) : ∃ p, RunEnded { w with frames := g :: more } g more root p r.key
      (w.space.tree.ancestors r.first) := by
  obtain ⟨-, -, p, hrun, hidle⟩ := h.visiting hf ht
  have hs := h.stack
  rw [hf] at hs
  exact ⟨p, h.wellFormed, hs.head.1, rfl, hidle, hrun.standing,
    h.wellFormed.ancestors_of_parent hrun.first⟩

/-- The next node is visited, in the innermost document. -/
theorem Coherent.visited {v : Visit} (h : Coherent even w (root :: rs)) (hf : w.frames = f :: more)
    (ht : takeRun f = some (r, g)) (hrot : w.rotation = none) (hn : r.next = some n)
    (hv : visit o g r.key n { w with frames := g :: more } = .ok v w₁) :
    ∃ p, Visited { w with frames := g :: more } g more root rs p r w₁ ∧ Follows w₁ root rs n v := by
  obtain ⟨hsame, -, p, hrun, hidle⟩ := h.visiting hf ht
  have hs := h.stack
  rw [hf] at hs
  obtain ⟨hroot, -, hfresh, -⟩ := hs.head
  have hvisiting : Visiting { w with frames := g :: more } g more root rs p r n :=
    ⟨h.wellFormed, rfl, hidle, hroot, hfresh, hrun, hn⟩
  exact ⟨p, hvisiting.visit (fun r hm => hs.tail.isRoot hm) h.docs
    (fun hsees => (hs.main_of_sees (hsame.sees.symm.trans hsees)).2) hrot hv⟩

/-- Behind a visit the walk of the innermost document goes on. -/
theorem Coherent.resumed {v : Visit} {w₂ : Walk} (h : Coherent even w (root :: rs)) (hf : w.frames = f :: more)
    (ht : takeRun f = some (r, g)) (hrot : w.rotation = none) (hn : r.next = some n)
    (hv : visit o g r.key n { w with frames := g :: more } = .ok v w₁) (hr : resume r n w₁ = .ok u w₂) :
    Coherent even w₂ (root :: rs) ∧ w₂.frames ≠ [] ∧ Follows w₂ root rs n v := by
  obtain ⟨hsame, hloops, -⟩ := h.visiting hf ht
  have hs := h.stack
  rw [hf] at hs
  obtain ⟨p, hvisited, hfollows⟩ := h.visited hf ht hrot hn hv
  obtain ⟨hrest, g', hf', hsame', hrep, hplaced⟩ := hvisited.resume hn hr
  have htree : w₂.space.tree = w₁.space.tree := by rw [hrest]
  have hdocs₂ : documents w₂ = documents w₁ := by rw [hrest]; rfl
  have hrot₂ : w₂.rotation = w₁.rotation := by rw [hrest]
  have hsink₂ : w₂.sink = w₁.sink := by rw [hrest]
  have hdepth₂ : w₂.depth = w₁.depth := by rw [hrest]
  have hphase₂ : w₂.phase = w₁.phase := by rw [hrest]
  have hdocs : documents w₂ = documents w := hdocs₂.trans hvisited.steady.docs
  have hfollows₂ : Follows w₂ root rs n v := by
    cases hfollows with
    | done hr => exact .done (hrot₂.trans hr)
    | yield hr hw hs => exact .yield (hrot₂.trans hr) (htree ▸ hw) (hsink₂.trans hs)
    | enter hr he =>
      exact .enter (hrot₂.trans hr) ⟨htree ▸ he.isRoot, he.fresh, he.sees,
        fun hown => hdocs₂ ▸ he.owned hown, fun hown => hdocs₂ ▸ he.found hown⟩
  refine ⟨⟨htree ▸ hvisited.around.wellFormed, ?_, ?_, fun m hm => ?_, ?_,
    hphase₂.trans (hvisited.steady.phase.trans h.phase)⟩, by rw [hf']; exact List.cons_ne_nil _ _, hfollows₂⟩
  · rw [hdocs, hf']
    exact hs.replace h.wellFormed (htree ▸ hvisited.around) hplaced (hsame.trans hsame')
  · rw [hdocs, htree]
    exact fun d hm => hvisited.around.isRoot d (h.docs d hm)
  · cases hfollows₂ with
    | done hr =>
      rw [hr] at hm
      cases hm
    | yield hr hw hs =>
      rw [hr] at hm
      cases hm
      exact ⟨hs, root, List.mem_cons_self, hw⟩
    | enter hr _ =>
      rw [hr] at hm
      cases hm
  · rw [hf', levelsOf_replace (hrep.trans (congrArg repeating hloops)), ← hf]
    exact (hvisited.leveled _ _ (h.leveled.of_eq rfl rfl)).of_eq hdepth₂ hsink₂

/-- Going into a document. -/
theorem Coherent.entered {e : Entry} (h : Coherent even w roots) (hne : w.frames ≠ []) (hrot : w.rotation = none)
    (he : Enterable w roots e) (hent : enter o e w = .ok u w') : Coherent even w' (e.document.root :: roots) := by
  have hent : EnteredDocument w roots e w' := enteredDocument h.wellFormed he.isRoot he.fresh hent
  obtain ⟨F, hF, hFsrc, hFs, hFo, hFl, hFp⟩ := hent.frame
  refine ⟨hent.around.wellFormed, ?_, ?_, fun n hn => ?_, ?_, hent.steady.phase.trans h.phase⟩
  · rw [hent.steady.docs, hF]
    refine .import (h.stack.transfer h.wellFormed hent.around.wellFormed fun r hm =>
      hent.around.trunk r hm (h.stack.isRoot hm)) hne hent.isRoot hFp ?_ he.fresh (hFs.trans he.sees) ?_
    · unfold rootOf
      rw [hFo, hFsrc]
      cases hown : e.owned with
      | true => rfl
      | false =>
        obtain ⟨i, hsrc, hi⟩ := he.found hown
        rw [hsrc]
        exact hi
    · intro r' hr'
      rw [hFo] at hr'
      split at hr'
      · rename_i hown
        cases hr'
        exact ⟨rfl, he.owned hown⟩
      · cases hr'
  · rw [hent.steady.docs]
    exact fun d hm => hent.around.isRoot d (h.docs d hm)
  · rw [hent.rotation, hrot] at hn
    cases hn
  · rw [hF, levelsOf_cons, hFl]
    exact hent.leveled _ _ h.leveled

theorem Coherent.advance {progress : Progress} (h : Coherent even w (root :: rs))
    (hf : w.frames = f :: more) (ht : takeRun f = some (r, g)) (hrot : w.rotation = none)
    (hn : r.next = some n)
    (ha : advance o g r n { w with frames := g :: more } = .ok progress w') :
    ∃ roots, Coherent even w' roots := by
  obtain ⟨v, w₁, h₁, ha⟩ := Action.bind_eq_ok.mp ha
  obtain ⟨_, w₂, h₂, ha⟩ := Action.bind_eq_ok.mp ha
  obtain ⟨hc, hne, hfollows⟩ := h.resumed hf ht hrot hn (Action.locating_eq_ok.mp h₁) h₂
  cases hfollows with
  | done _ =>
    obtain ⟨-, rfl⟩ := Action.pure_eq_ok.mp ha
    exact ⟨_, hc⟩
  | yield _ _ _ =>
    obtain ⟨-, rfl⟩ := Action.pure_eq_ok.mp ha
    exact ⟨_, hc⟩
  | @enter e hr he =>
    obtain ⟨_, w₃, h₃, ha⟩ := Action.bind_eq_ok.mp ha
    obtain ⟨-, rfl⟩ := Action.pure_eq_ok.mp ha
    exact ⟨_, hc.entered hne hr he h₃⟩

/-- Behind the loops that are asked the walk of the innermost document goes on. -/
theorem Coherent.asked (h : Coherent even w (root :: rs)) (hf : w.frames = f :: more)
    (ht : takeRun f = some (r, g)) (hrot : w.rotation = none)
    (hl : Walk.closeLoops o (w.space.tree.ancestors r.first) { w with frames := g :: more } = .ok u w') :
    Coherent even w' (root :: rs) := by
  have hs := h.stack
  rw [hf] at hs
  obtain ⟨hsame, hloops, -⟩ := h.visiting hf ht
  obtain ⟨p, hended⟩ := h.runEnded hf ht
  have hask := asked_closeLoops hended hs.head.2.2.1 hl
  obtain ⟨g', hf', hsame', hidle', hpaused, hlev⟩ := hask.frame
  have hdocs : documents w' = documents w := hask.steady.docs
  refine ⟨hask.around.wellFormed, ?_, ?_, fun n hn => ?_, ?_, hask.steady.phase.trans h.phase⟩
  · rw [hdocs, hf']
    refine hs.replace h.wellFormed hask.around ?_ (hsame.trans hsame')
    unfold Placed
    rw [hidle']
    exact hpaused
  · rw [hdocs]
    exact fun d hm => hask.around.isRoot d (h.docs d hm)
  · rw [show w'.rotation = none from hask.rotation.trans hrot] at hn
    cases hn
  · rw [hf', levelsOf_cons, Nat.add_right_comm]
    refine hlev _ _ ?_
    have hk := h.leveled
    rw [hf, levelsOf_cons, Nat.add_right_comm] at hk
    rw [hloops]
    exact hk.of_eq rfl rfl

/-- When no document is left, the sink that is open is handed out. -/
theorem finish_ok {progress : Progress} (h : finish w = .ok progress w') :
    w.sink = none ∧ progress = .finished ∧ w' = w
      ∨ ∃ s, w.sink = some s ∧ progress = .yield s.flush ∧ w' = keep s { w with sink := none } := by
  rw [finish, Action.get_bind_eq_ok] at h
  cases hs : w.sink with
  | none =>
    simp only [hs] at h
    obtain ⟨rfl, rfl⟩ := Action.pure_eq_ok.mp h
    exact .inl ⟨rfl, rfl, rfl⟩
  | some s =>
    simp only [hs] at h
    rw [Action.set_bind_eq_ok] at h
    obtain ⟨rfl, rfl⟩ := Action.pure_eq_ok.mp h
    exact .inr ⟨s, rfl, rfl, rfl⟩

/-- A round makes the change of output that is due; then it ends the walk, or a document, or it visits a node, or
    it asks the loops around a run that has ended. -/
theorem round_ok {progress : Progress} (h : round o w = .ok progress w') : ∃ w₁, rotate o w = .ok () w₁
    ∧ (w₁.frames = [] ∧ finish w₁ = .ok progress w'
      ∨ ∃ f more, w₁.frames = f :: more
        ∧ (takeRun f = none ∧ progress = .goOn ∧ leave o w₁ = .ok () w'
          ∨ ∃ r g, takeRun f = some (r, g)
            ∧ ((∃ n, r.next = some n ∧ advance o g r n { w₁ with frames := g :: more } = .ok progress w')
              ∨ r.next = none ∧ progress = .goOn
                ∧ closeLoops o (w₁.space.tree.ancestors r.first) { w₁ with frames := g :: more } = .ok () w'))) := by
  obtain ⟨_, w₁, h₁, h⟩ := Action.bind_eq_ok.mp h
  refine ⟨w₁, h₁, ?_⟩
  rw [Action.get_bind_eq_ok] at h
  cases hf : w₁.frames with
  | nil =>
    simp only [hf] at h
    exact .inl ⟨rfl, h⟩
  | cons f more =>
    simp only [hf] at h
    refine .inr ⟨f, more, rfl, ?_⟩
    cases ht : takeRun f with
    | none =>
      simp only [ht] at h
      obtain ⟨_, w₂, h₂, h⟩ := Action.bind_eq_ok.mp h
      obtain ⟨rfl, rfl⟩ := Action.pure_eq_ok.mp h
      exact .inl ⟨rfl, rfl, h₂⟩
    | some taken =>
      obtain ⟨r, g⟩ := taken
      simp only [ht] at h
      rw [Action.set_bind_eq_ok] at h
      refine .inr ⟨r, g, rfl, ?_⟩
      cases hn : r.next with
      | some n =>
        simp only [hn] at h
        exact .inl ⟨n, rfl, h⟩
      | none =>
        simp only [hn] at h
        obtain ⟨_, w₂, h₂, h⟩ := Action.bind_eq_ok.mp h
        obtain ⟨rfl, rfl⟩ := Action.pure_eq_ok.mp h
        exact .inr ⟨rfl, rfl, h₂⟩

/-- A round leads to a coherent state. -/
theorem Coherent.round {progress : Progress} (h : Coherent even w roots)
    (hr : round o w = .ok progress w') : ∃ roots', Coherent even w' roots' := by
  obtain ⟨w₁, h₁, hr⟩ := round_ok hr
  obtain ⟨hc, -, hrot⟩ := h.rotate h₁
  rcases hr with ⟨-, hr⟩ | ⟨f, more, hf, hr⟩
  · rcases finish_ok hr with ⟨-, -, rfl⟩ | ⟨s, -, -, rfl⟩
    · exact ⟨_, hc⟩
    · rw [keep_rest]
      exact ⟨_, hc.wellFormed, hc.stack, hc.docs, fun n hn => ⟨rfl, (hc.rotation n hn).2⟩,
        ⟨hc.leveled.depth, fun _ s hs => nomatch hs⟩, hc.phase⟩
  have hstack := hc.stack
  rw [hf] at hstack
  obtain ⟨root, rs, rfl⟩ := hstack.roots_cons
  rcases hr with ⟨ht, -, hr⟩ | ⟨r, g, ht, ⟨n, hn, hr⟩ | ⟨-, -, hr⟩⟩
  · exact ⟨_, hc.leave hf ht hrot hr⟩
  · exact hc.advance hf ht hrot hn hr
  · exact ⟨_, hc.asked hf ht hrot hr⟩

/-! ## Reached states -/

/-- Secondary documents are put beside what is there, each as a document of its own. -/
structure PlacedAll (t : Tree) (entries : List CombinedEntry) (t' : Tree) : Prop where
  wellFormed : t'.WellFormed
  keeps : Keeps t.Live t t'
  fresh : ∀ e ∈ entries, ¬ t.Live e.root
  isRoot : ∀ e ∈ entries, IsRoot t' e.root

theorem placedAll {ds : List Document} {entries : List CombinedEntry} (hwf : t.WellFormed)
    (h : placeAll t ds = (entries, t')) : PlacedAll t entries t' := by
  induction ds generalizing t entries with
  | nil =>
    cases h
    exact ⟨hwf, fun n hn => ⟨hn, rfl⟩, fun _ he => (nomatch he), fun _ he => (nomatch he)⟩
  | cons d ds ih =>
    have hg := hwf.grafted d.layout
    unfold placeAll at h
    cases hgr : t.graft none d.layout with
    | mk root t₁ =>
      rw [hgr] at hg
      cases hrest : placeAll t₁ ds with
      | mk rest t₂ =>
        simp only [hgr, hrest] at h
        cases h
        have hall := ih hg.wellFormed hrest
        refine ⟨hall.wellFormed, fun n hn => ?_, ?_, ?_⟩
        · have h₂ := hall.keeps n (hg.live n hn)
          exact ⟨h₂.1, h₂.2.trans (hg.node n hn)⟩
        · intro e he
          rcases List.mem_cons.mp he with rfl | he
          · exact hg.fresh
          · exact fun hl => hall.fresh e he (hg.live _ hl)
        · intro e he
          rcases List.mem_cons.mp he with rfl | he
          · have h₂ := hall.keeps root hg.live_root
            refine ⟨h₂.1, ?_⟩
            rw [Tree.parent?, h₂.2]
            exact hg.parent?_root
          · exact hall.isRoot e he

/-- The states of a walk between two rounds. -/
inductive Reached (o : Options) (s : Setup) : Walk → Prop
  | start {w : Walk} (h : start o ⟨0, s.main.path⟩ (begin s) = .ok () w) : Reached o s w
  | round {w w' : Walk} {progress : Progress} (before : Reached o s w)
    (h : round o w = .ok progress w') : Reached o s w'

/-- The sink that is open at the beginning, if there is one, has no level yet. -/
def Setup.Fresh (s : Setup) : Prop := ∀ k, s.sink = some k → k.levels = []

/-- Before a walk begins, its documents stand ready, the main one at the node 0. -/
theorem begun (s : Setup) : (begin s).space.tree.WellFormed ∧ IsRoot (begin s).space.tree 0
    ∧ ∀ d ∈ documents (begin s), IsRoot (begin s).space.tree d ∧ d ≠ 0 := by
  have hg := Tree.grafted_ofElement s.main.layout
  cases hp : placeAll (Tree.ofElement s.main.layout) s.secondary with | mk entries t
  have hall := placedAll hg.wellFormed hp
  unfold begin
  simp only [hp]
  have hk := hall.keeps 0 hg.live_root
  refine ⟨hall.wellFormed, ⟨hk.1, ?_⟩, fun d hd => ?_⟩
  · rw [Tree.parent?, hk.2]
    exact hg.parent?_root
  · obtain ⟨e, he, rfl⟩ := List.mem_map.mp hd
    exact ⟨hall.isRoot e he, fun h0 => hall.fresh e he (h0 ▸ hg.live_root)⟩

theorem Coherent.start {s : Setup} (h : start o ⟨0, s.main.path⟩ (begin s) = .ok u w) :
    Coherent s.Fresh w [0] := by
  obtain ⟨hwf, hroot, hsecondary⟩ := begun s
  rw [Walk.start, Action.modify_bind_eq_ok] at h
  have hent : EnteredDocument _ [] _ w := enteredDocument
    (w := { begin s with phase := .running, main := (begin s).main.map fun t => t.read.2 })
    hwf hroot List.not_mem_nil h
  obtain ⟨F, hF, hFsrc, hFs, hFo, hFl, hFp⟩ := hent.frame
  have hdocs : documents w = documents (begin s) := hent.steady.docs
  refine ⟨hent.around.wellFormed, ?_, ?_, fun n hn => ?_, ?_, hent.steady.phase⟩
  · rw [hF]
    refine .main hent.isRoot hFp ?_ hFo fun hd => ?_
    · unfold rootOf
      rw [hFo, hFsrc]
      rfl
    · rw [hdocs] at hd
      exact (hsecondary 0 hd).2 rfl
  · rw [hdocs]
    exact fun d hd => hent.around.isRoot d (hsecondary d hd).1
  · rw [hent.rotation] at hn
    cases hn
  · rw [hF, levelsOf_cons, hFl]
    refine hent.leveled _ 0 ⟨rfl, fun hs k hk => ?_⟩
    show k.levels.length = 0
    rw [hs k hk]
    rfl

/-- Every state that a walk reaches is coherent. -/
theorem Reached.coherent {s : Setup} (h : Reached o s w) : ∃ roots, Coherent s.Fresh w roots := by
  induction h with
  | start h => exact ⟨_, .start h⟩
  | round _ h ih =>
    obtain ⟨roots, hc⟩ := ih
    exact hc.round h

/-- The next `n` rounds succeed, and lead to a state with a property. -/
def leadsTo (o : Options) (p : Walk → Bool) : Nat → Walk → Bool
  | 0, w => p w
  | n + 1, w => Action.succeeds (round o w) fun _ w => leadsTo o p n w

theorem Reached.leadsTo {s : Setup} {p : Walk → Bool} {n : Nat} (hr : Reached o s w)
    (h : leadsTo o p n w = true) : ∃ w', Reached o s w' ∧ p w' = true := by
  induction n generalizing w with
  | zero => exact ⟨w, hr, h⟩
  | succ n ih =>
    obtain ⟨_, w₁, h₁, h⟩ := Action.succeeds_iff.mp h
    exact ih (.round hr h₁) h

theorem exists_reached {s : Setup} {p : Walk → Bool} {n : Nat}
    (h : Action.succeeds (start o ⟨0, s.main.path⟩ (begin s)) (fun _ w => leadsTo o p n w) = true) :
    ∃ w, Reached o s w ∧ p w = true := by
  obtain ⟨_, w, h₁, h⟩ := Action.succeeds_iff.mp h
  exact Reached.leadsTo (.start h₁) h

end Stencil.Walk
