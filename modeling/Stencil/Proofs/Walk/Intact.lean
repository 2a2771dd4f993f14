/-
  What every state of a walk keeps in order.

  A walk is `Intact` if no document of it stands at a copy that it should not stand at, and if what waits stands
  where it may stand.  A walk that has begun is, and a round leads to one that is (`Coherent.intact_round`): it
  changes the innermost document, and of the documents around it nothing that counts.
-/
import Stencil.Proofs.Walk.Upkeep

set_option autoImplicit false

namespace Stencil.Walk

open Stencil.Tree (Under Inner)

variable {t t' : Tree} {docs rs roots : List NodeId} {root n : NodeId} {r : Run} {f g : Frame}
  {frames more : List Frame} {w w₁ w' : Walk} {o : Options} {u : Unit} {even : Prop} {progress : Progress}

/-! ## Going into a document -/

/-- Going into a document: its static imports are resolved and its loops get numbers; a level is opened for it, and
    its walk begins at the first node below its root. -/
theorem enter_ok {e : Entry} (h : enter o e w = .ok u w') : ∃ d k t,
    Import.resolve o w.loader e.document ⟨w.space.tree, w.library⟩ = .ok () d
      ∧ numberLoops w.nextLoop d.tree (d.tree.descendants e.document.root) = (k, t)
      ∧ w' = { w with
        library := d.library, space := { w.space with tree := t }, nextLoop := k
        sink := w.sink.map Sink.push, depth := w.depth + 1
        frames :=
          ⟨e.document.path, e.source, e.seesSecondary,
            (match t.firstChild? e.document.root with
              | some first => [⟨"", first⟩]
              | none => []), [], none, if e.owned then some e.document.root else none⟩ :: w.frames } := by
  rw [enter, Action.get_bind_eq_ok] at h
  obtain ⟨_, w₁, h₁, h⟩ := Action.bind_eq_ok.mp h
  obtain ⟨d, hd, rfl⟩ := onDesk_ok h₁
  rw [Action.modify_bind_eq_ok] at h
  obtain ⟨_, w₂, h₂, h⟩ := Action.bind_eq_ok.mp h
  rw [pushLevel_eq_ok] at h₂
  have hw := Action.modify_eq_ok.mp h
  subst h₂
  exact ⟨d, _, _, hd, rfl, hw⟩

/-! ## What is kept -/

/-- What a walk keeps is in order. -/
structure Intact (w : Walk) : Prop where
  tidy : ∀ f ∈ w.frames, Tidy w.space.tree f
  waits : WaitsOn w.space.tree (holders (documents w) w.frames) w.sink

/-- The documents whose walks notice nothing stay in order. -/
theorem Stack.intact_of_undisturbed (hwf : t.WellFormed) (hs : Stack t docs frames roots)
    (hu : ∀ r ∈ roots, Undisturbed t t' r) {sink : Option Sink} (ht : ∀ f ∈ frames, Tidy t f)
    (hw : WaitsOn t (holders docs frames) sink) :
    (∀ f ∈ frames, Tidy t' f) ∧ WaitsOn t' (holders docs frames) sink := by
  constructor
  · intro f hf
    obtain ⟨r, hm, -, -, hp⟩ := hs.exists_root hf
    exact (ht f hf).of_undisturbed hwf (hu r hm) hp
  · refine hw.mono fun k hk x hx => ?_
    obtain ⟨hm, hroot⟩ := hs.mem_holders hk
    exact hx.of_undisturbed hwf hroot (hu k.1 hm)

theorem Stack.undisturbed_of_around (hwf : t.WellFormed) (hs : Stack t docs frames roots)
    (ha : Around roots t t') : ∀ r ∈ roots, Undisturbed t t' r := fun _ hr =>
  Walk.undisturbed_of_around hwf ha hr (hs.isRoot hr)

/-- A change of which no walk of a document notices anything. -/
theorem Coherent.intact_of_around (hc : Coherent even w roots) (h : Intact w)
    (ha : Around roots w.space.tree w'.space.tree) (hf : w'.frames = w.frames) (hd : documents w' = documents w)
    (hs : w'.sink = w.sink ∨ WaitsOn w'.space.tree (holders (documents w) w.frames) w'.sink) : Intact w' := by
  obtain ⟨htidy, hwaits⟩ := hc.stack.intact_of_undisturbed hc.wellFormed
    (hc.stack.undisturbed_of_around hc.wellFormed ha) h.tidy h.waits
  refine ⟨by rw [hf]; exact htidy, ?_⟩
  rw [hf, hd]
  rcases hs with hs | hs
  · rw [hs]
    exact hwaits
  · exact hs

theorem GoesOn.intact (h : GoesOn w g more) (hmore : ∀ f ∈ more, Tidy w.space.tree f) : Intact w where
  tidy := by
    rw [h.frames]
    exact List.forall_mem_cons.mpr ⟨h.tidy, hmore⟩
  waits := by
    rw [h.frames]
    exact h.waits

/-! ## Documents begin and end -/

/-- The walk of a document begins at no copy, and nothing waits in it. -/
theorem Intact.enter {e : Entry} (h : Intact w) (hwf : w.space.tree.WellFormed)
    (hs : Stack w.space.tree (documents w) w.frames roots) (hroot : IsRoot w.space.tree e.document.root)
    (hfresh : e.document.root ∉ roots) (he : Walk.enter o e w = .ok u w') : Intact w' := by
  have ha := (enteredDocument hwf hroot hfresh he).around
  obtain ⟨d, k, t, -, -, rfl⟩ := enter_ok he
  replace ha : Around roots w.space.tree t := ha
  obtain ⟨htidy, hwaits⟩ :=
    hs.intact_of_undisturbed hwf (hs.undisturbed_of_around hwf ha) h.tidy h.waits
  refine ⟨List.forall_mem_cons.mpr ⟨?_, htidy⟩, hwaits.push _⟩
  refine ⟨fun pos hpos => ?_, (fun _ _ hr => by cases hr), (fun _ hl => by cases hl), fun _ hl => by cases hl⟩
  dsimp only at hpos
  split at hpos
  · rename_i first hfirst
    rw [List.mem_singleton.mp hpos]
    exact not_copied_first ha.wellFormed hfirst
  · cases hpos

/-- Nothing waits in a document that is left. -/
theorem Coherent.intact_left (hc : Coherent even w (root :: rs)) (h : Intact w) (hf : w.frames = f :: more)
    (ht : takeRun f = none) (h₁ : completeLevel o w = .ok u w₁) :
    Intact { w₁ with frames := more, sink := w₁.sink.map Sink.pop, depth := w₁.depth - 1 } := by
  have hwf := hc.wellFormed
  have hstack := hc.stack
  rw [hf] at hstack
  obtain ⟨-, hplaced, -⟩ := hstack.head
  have hd := levelDone hwf h₁
  have hdocs : documents w₁ = documents w := by rw [hd.rest]; rfl
  have hu := hstack.tail.undisturbed_of_around hwf ((quiet_of_refreshed hwf hd.tree).around hwf)
  refine ⟨fun g hg => ?_, ?_⟩
  · obtain ⟨r, hm, -, -, hp⟩ := hstack.tail.exists_root hg
    exact (h.tidy g (by rw [hf]; exact List.mem_cons_of_mem _ hg)).of_undisturbed hwf (hu r hm) hp
  · -- the level of the document is completed and closed
    show WaitsOn w₁.space.tree (holders (documents w₁) more) (w₁.sink.map Sink.pop)
    have hw := h.waits
    rw [hf, holders_cons, hplaced.ended ht] at hw
    rw [hdocs]
    refine (waitsOn_completeLevel hwf (fun _ k hk x hx => ?_) hw h₁ (root, [])).pop
    obtain ⟨hm, hr⟩ := hstack.tail.mem_holders hk
    exact hx.of_undisturbed hwf hr (hu k.1 hm)

theorem Coherent.intact_leave (hc : Coherent even w (root :: rs)) (h : Intact w) (hf : w.frames = f :: more)
    (ht : takeRun f = none) (hrot : w.rotation = none) (hl : Walk.leave o w = .ok u w') : Intact w' := by
  have hstack := hc.stack
  rw [hf] at hstack
  obtain ⟨hroot, -, hfresh, howned⟩ := hstack.head
  obtain ⟨w₁, h₁, hd, rfl⟩ := leave_ok hc.wellFormed hf hl
  have hc₁ := hc.left hf ht hrot h₁
  have hin := hc.intact_left h hf ht h₁
  cases ho : f.owned with
  | none => exact hin
  | some r' =>
    -- the other documents do not notice that the document is given up
    obtain ⟨rfl, -⟩ := howned r' ho
    have hroot₁ := (quiet_of_refreshed hc.wellFormed hd.tree).isRoot hroot
    obtain ⟨htidy, hwaits⟩ := hc₁.stack.intact_of_undisturbed hc₁.wellFormed
      (fun r hm => undisturbed_of_release hc₁.wellFormed (hc₁.stack.isRoot hm) hroot₁ fun he => hfresh (he ▸ hm))
      hin.tidy hin.waits
    exact ⟨htidy, hwaits⟩

/-! ## Rounds -/

theorem Coherent.intact_rotate (hc : Coherent even w roots) (h : Intact w) (hr : Walk.rotate o w = .ok u w') :
    Intact w' := by
  rcases hc.rotate_ok hr with ⟨rfl, -⟩ | ⟨n, r, f, more, -, ho⟩
  · exact h
  · have hrest := ho.rest
    obtain ⟨s, hs, hl, -⟩ := ho.sink
    refine hc.intact_of_around h (ho.step.quiet.around hc.wellFormed) (by rw [hrest]) (by rw [hrest]; rfl) (.inr ?_)
    rw [hs]
    exact .of_replicate (by rw [hl, length_holders, ← hc.leveled.depth])

/-- The innermost document, whose next run is taken up. -/
theorem Coherent.orderly (hc : Coherent even w (root :: rs)) (h : Intact w) (hf : w.frames = f :: more)
    (ht : takeRun f = some (r, g)) : Orderly { w with frames := g :: more } g more root rs
      ∧ ∀ n, r.next = some n → ¬ Copied w.space.tree n := by
  have hs := hc.stack
  rw [hf] at hs
  obtain ⟨hsame, hloops, -⟩ := hc.visiting hf ht
  obtain ⟨htidy, hnext⟩ := (h.tidy f (by rw [hf]; exact List.mem_cons_self)).takeRun ht
  refine ⟨⟨⟨rfl, htidy, ?_⟩, hs.tail, (hsame.rootOf _).trans hs.found⟩, hnext⟩
  have hw := h.waits
  rw [hf] at hw
  rw [holders_cons_congr hsame (congrArg levelLoops hloops)]
  exact hw

/-- The documents around the innermost one, whose walk goes on. -/
theorem Coherent.intact_of_goesOn (hc : Coherent even w (root :: rs)) (h : Intact w) (hf : w.frames = f :: more)
    (ha : Around rs w.space.tree w'.space.tree) (hgo : GoesOn w' g more) : Intact w' := by
  have hs := hc.stack
  rw [hf] at hs
  refine hgo.intact fun f' hf' => ?_
  obtain ⟨r, hm, -, hroot, hp⟩ := hs.tail.exists_root hf'
  exact (h.tidy f' (by rw [hf]; exact List.mem_cons_of_mem _ hf')).of_undisturbed hc.wellFormed
    (undisturbed_of_around hc.wellFormed ha hm hroot) hp

/-- What a visit in a round does to what is kept. -/
theorem Coherent.kept {v : Visit} (hc : Coherent even w (root :: rs)) (h : Intact w) (hf : w.frames = f :: more)
    (ht : takeRun f = some (r, g)) (hn : r.next = some n)
    (hv : Walk.visit o g r.key n { w with frames := g :: more } = .ok v w₁) :
    ∃ g', Kept { w with frames := g :: more } g more r n w₁ g' := by
  obtain ⟨hsame, hloops, p, hrun, hidle⟩ := hc.visiting hf ht
  have hs := hc.stack
  rw [hf] at hs
  obtain ⟨hroot, -, hfresh, -⟩ := hs.head
  obtain ⟨ho, hcop⟩ := hc.orderly h hf ht
  have hvisiting : Visiting { w with frames := g :: more } g more root rs p r n :=
    ⟨hc.wellFormed, rfl, hidle, hroot, hfresh, hrun, hn⟩
  refine hvisiting.kept ho hc.docs (fun hsees => (hs.main_of_sees (hsame.sees.symm.trans hsees)).2) ?_
    (hcop n hn) hv
  show w.depth = _
  rw [hc.leveled.depth, hf, levelsOf_replace (congrArg repeating hloops)]

/-- Behind a visit the walk is in order. -/
theorem Coherent.intact_resumed {v : Visit} {w₂ : Walk} (hc : Coherent even w (root :: rs)) (h : Intact w)
    (hf : w.frames = f :: more) (ht : takeRun f = some (r, g)) (hrot : w.rotation = none) (hn : r.next = some n)
    (hv : Walk.visit o g r.key n { w with frames := g :: more } = .ok v w₁) (hr : Walk.resume r n w₁ = .ok u w₂) :
    Intact w₂ := by
  obtain ⟨p, hvisited, -⟩ := hc.visited hf ht hrot hn hv
  obtain ⟨g', hkept⟩ := hc.kept h hf ht hn hv
  obtain ⟨hrest, g'', hgo⟩ := hkept.resume hr
  have htree : w₂.space.tree = w₁.space.tree := by rw [hrest]
  exact hc.intact_of_goesOn h hf (htree ▸ hvisited.around) hgo

theorem Coherent.intact_advance (hc : Coherent even w (root :: rs)) (h : Intact w) (hf : w.frames = f :: more)
    (ht : takeRun f = some (r, g)) (hrot : w.rotation = none) (hn : r.next = some n)
    (ha : Walk.advance o g r n { w with frames := g :: more } = .ok progress w') : Intact w' := by
  obtain ⟨v, w₁, h₁, ha⟩ := Action.bind_eq_ok.mp ha
  obtain ⟨_, w₂, h₂, ha⟩ := Action.bind_eq_ok.mp ha
  have hv := Action.locating_eq_ok.mp h₁
  obtain ⟨hc₂, -, hfollows⟩ := hc.resumed hf ht hrot hn hv h₂
  have hintact := hc.intact_resumed h hf ht hrot hn hv h₂
  cases hfollows with
  | done _ =>
    obtain ⟨-, rfl⟩ := Action.pure_eq_ok.mp ha
    exact hintact
  | yield _ _ _ =>
    obtain ⟨-, rfl⟩ := Action.pure_eq_ok.mp ha
    exact hintact
  | @enter e _ he =>
    obtain ⟨_, w₃, h₃, ha⟩ := Action.bind_eq_ok.mp ha
    obtain ⟨-, rfl⟩ := Action.pure_eq_ok.mp ha
    exact hintact.enter hc₂.wellFormed hc₂.stack he.isRoot he.fresh h₃

theorem Coherent.intact_closeLoops (hc : Coherent even w (root :: rs)) (h : Intact w) (hf : w.frames = f :: more)
    (ht : takeRun f = some (r, g))
    (hl : closeLoops o (w.space.tree.ancestors r.first) { w with frames := g :: more } = .ok u w') : Intact w' := by
  obtain ⟨p, hended⟩ := hc.runEnded hf ht
  have hs := hc.stack
  rw [hf] at hs
  obtain ⟨-, -, hfresh, -⟩ := hs.head
  obtain ⟨⟨g', hgo⟩, -⟩ := hended.goesOn hfresh (hc.orderly h hf ht).1 hl
  exact hc.intact_of_goesOn h hf (asked_closeLoops hended hfresh hl).around hgo

/-- A round leaves a walk in order. -/
theorem Coherent.intact_round (hc : Coherent even w roots) (h : Intact w) (hr : Walk.round o w = .ok progress w') :
    Intact w' := by
  obtain ⟨w₁, h₁, hr⟩ := round_ok hr
  obtain ⟨hc₁, -, hrot⟩ := hc.rotate h₁
  have h₁ := hc.intact_rotate h h₁
  rcases hr with ⟨hf, hr⟩ | ⟨f, more, hf, hr⟩
  · rcases finish_ok hr with ⟨-, -, rfl⟩ | ⟨s, -, -, rfl⟩
    · exact h₁
    · rw [keep_rest]
      exact ⟨h₁.tidy, .closed⟩
  have hstack := hc₁.stack
  rw [hf] at hstack
  obtain ⟨root, rs, rfl⟩ := hstack.roots_cons
  rcases hr with ⟨ht, -, hr⟩ | ⟨r, g, ht, ⟨n, hn, hr⟩ | ⟨-, -, hr⟩⟩
  · exact hc₁.intact_leave h₁ hf ht hrot hr
  · exact hc₁.intact_advance h₁ hf ht hrot hn hr
  · exact hc₁.intact_closeLoops h₁ hf ht hr

/-- A walk that has begun is in order. -/
theorem Intact.start {s : Setup} (h : Walk.start o ⟨0, s.main.path⟩ (begin s) = .ok u w) : Intact w := by
  obtain ⟨hwf, hroot, -⟩ := begun s
  rw [Walk.start, Action.modify_bind_eq_ok] at h
  have h₀ : Intact { begin s with phase := .running, main := (begin s).main.map fun t => t.read.2 } :=
    ⟨(fun _ hf => by cases hf), fun _ _ => ⟨[], _, rfl, .nil⟩⟩
  exact h₀.enter hwf .nil hroot List.not_mem_nil h

/-- Every state that a walk reaches is in order. -/
theorem Reached.intact {s : Setup} (h : Reached o s w) : Intact w := by
  induction h with
  | start h => exact .start h
  | round hb h ih =>
    obtain ⟨roots, hc⟩ := hb.coherent
    exact hc.intact_round ih h

end Stencil.Walk
