/-
  Rounds keep in order what a walk keeps.

  Between two rounds no position, no run and no loop of a walk is at a copy that it should not be at (`Tidy`),
  and what waits stands where it may stand (`WaitsOn`): the two make `Intact`.  Each visit, and the end of each
  run, keeps that up for the innermost document (`Visiting.kept`, `RunEnded.goesOn`); of the other documents
  nothing changes.

  It is also said which nodes a visit gives up: the copies of the loop that it enters, and nothing else.
-/
import Stencil.Proofs.Walk.Waiting

set_option autoImplicit false

namespace Stencil.Walk

open Stencil.Tree (Under Inner Refreshed)
open Loop (Entered copies SameFeed)
open Loop.Turn (Continues Advanced)
open Work (Level)

variable {t t' : Tree} {rs roots parents : List NodeId} {root p n q : NodeId} {r : Run} {f g : Frame}
  {more : List Frame} {w w₁ w' : Walk} {o : Options} {key : String} {loops outer : List Loop} {l : Loop}
  {scan : List Position} {u : Unit} {even : Prop}

/-- The walk of the innermost document goes on in the frame `g`, and what it keeps is in order. -/
structure GoesOn (w : Walk) (g : Frame) (more : List Frame) : Prop where
  frames : w.frames = g :: more
  tidy : Tidy w.space.tree g
  waits : WaitsOn w.space.tree (holders (documents w) (g :: more)) w.sink

/-- The same, with what is to be known about the documents around it. -/
structure Orderly (w : Walk) (f : Frame) (more : List Frame) (root : NodeId) (rs : List NodeId) : Prop
    extends GoesOn w f more where
  below : Stack w.space.tree (documents w) more rs
  found : rootOf (documents w) f = some root

/-- A change of which no walk of a document notices anything leaves in place what waits. -/
theorem Orderly.waitsOn_of_around {sink : Option Sink} (h : Orderly w f more root rs)
    (hwf : w.space.tree.WellFormed) (hroot : IsRoot w.space.tree root)
    (ha : Around (root :: rs) w.space.tree t')
    (hw : WaitsOn w.space.tree (holders (documents w) (f :: more)) sink) :
    WaitsOn t' (holders (documents w) (f :: more)) sink :=
  h.below.waitsOn_of_step hwf (ha.mono fun _ hr => List.mem_cons_of_mem _ hr) h.found
    (fun _ _ _ hx => hx.of_around hwf ha List.mem_cons_self hroot) hw

/-! ## Visits -/

/-- What a visit to `n` does to what is kept: the walk goes on in the frame `g`; if it goes on behind the node,
    it comes to no copy there; and only copies of the node are given up. -/
structure Kept (w : Walk) (f : Frame) (more : List Frame) (r : Run) (n : NodeId) (w' : Walk) (g : Frame) : Prop
    extends GoesOn w' g more where
  same : SameFrame f g
  idle : g.run = none
  behind : g.scan.length = r.base → ∀ c, w'.space.tree.nextSibling? n = some c → ¬ Copied w'.space.tree c
  lost : ∀ m, w.space.tree.Live m → w'.space.tree.Live m
    ∨ w.space.tree.name n = "repeat" ∧ ∃ c ∈ copies w.space.tree n, Under w.space.tree c m

/-- A visit to a node other than a loop that changes no document. -/
theorem Visiting.kept_of_around (h : Visiting w f more root rs p r n) (ho : Orderly w f more root rs)
    (hname : w.space.tree.name n ≠ "repeat") (ha : Around (root :: rs) w.space.tree w'.space.tree)
    (hlive : ∀ m, w.space.tree.Live m → w'.space.tree.Live m) (hf : w'.frames = w.frames)
    (hd : documents w' = documents w)
    (hw : WaitsOn w'.space.tree (holders (documents w) (f :: more)) w'.sink) :
    Kept w f more r n w' f := by
  have htrunk := Tree.trunk_inner h.wellFormed h.isRoot.live h.isRoot.parent?
  have hlevel : ∀ q, Inner w.space.tree root q → Level w.space.tree w'.space.tree q := fun q hq =>
    Work.level_of_around h.wellFormed ha List.mem_cons_self h.isRoot hq
  have hi := h.running.standing.inner
  refine ⟨⟨hf.trans h.frames, ho.tidy.of_standing h.wellFormed ha.wellFormed h.idle h.running.standing
    fun q hq _ => hlevel q (htrunk.of_under hq hi), by rw [hd]; exact hw⟩, .refl f, h.idle, fun _ c hc => ?_,
    fun m hm => .inl (hlive m hm)⟩
  refine not_copied_next ha.wellFormed hc ?_
  rw [(hlevel p hi).name n (h.wellFormed.mem_children.mpr h.parent?)]
  exact hname

theorem Visiting.kept_item (h : Visiting w f more root rs p r n) (ho : Orderly w f more root rs)
    (hname : w.space.tree.name n = "item") (h₁ : fillItem f key n w = .ok () w₁)
    (h₂ : onSink (fun files => Job.setData o files n) w₁ = .ok u w') : Kept w f more r n w' f := by
  have hne : w.space.tree.name n ≠ "repeat" := by rw [hname]; decide
  obtain ⟨value, rfl⟩ := fillItem_ok h₁
  have hwf := h.wellFormed
  have hr₁ : Refreshed w.space.tree (putValue w.space.tree n value) :=
    refreshed_putValue hwf h.parent? (by rw [hname]; decide)
  rcases onSink_ok h₂ with ⟨hs, rfl⟩ | ⟨s, j, hs, hj, rfl⟩
  · have ha : Around (root :: rs) _ _ := (quiet_of_refreshed hwf hr₁).around hwf
    exact h.kept_of_around ho hne ha hr₁.live rfl rfl (ho.waitsOn_of_around hwf h.isRoot ha ho.waits)
  · have hput := Job.put_setData hr₁.wellFormed hj
    have hr := hr₁.trans hput.tree
    have hq := quiet_of_refreshed hwf hr
    have ha : Around (root :: rs) _ _ := hq.around hwf
    refine h.kept_of_around ho hne ha hr.live rfl rfl ?_
    have hwaits := ho.waitsOn_of_around hwf h.isRoot ha ho.waits
    replace hs : w.sink = some s := hs
    rw [hs] at hwaits
    have hlevels := hput.levels
    split at hlevels
    · -- the field is lazy: it waits on the innermost level
      rename_i hlazy
      have heval : j.space.tree.attr? n "eval" = some "lazy" := by
        unfold Tree.attr? at hlazy ⊢
        rw [hput.tree.attrs n (hr₁.live n (hwf.live_of_parent h.parent?).1)]
        exact hlazy
      obtain ⟨offset, level, levels, hl, hl'⟩ := hlevels
      have htrunk := Tree.trunk_inner hwf h.isRoot.live h.isRoot.parent?
      have hstand := h.running.standing
      have hlevel : ∀ q, Inner w.space.tree root q → Level w.space.tree j.space.tree q := fun q hq =>
        Work.level_of_around hwf ha List.mem_cons_self h.isRoot hq
      have hmem := hwf.mem_children.mpr h.parent?
      obtain ⟨top, rest, htop, haw⟩ := Standing.awaits hr.wellFormed (hq.isRoot h.isRoot)
        (ho.tidy.of_standing hwf hr.wellFormed h.idle hstand fun q hq _ => hlevel q (htrunk.of_under hq hstand.inner))
        (hstand.of_keepsShape hwf hr.wellFormed h.isRoot.live h.isRoot.parent? (hq.shape root h.isRoot))
        (hr.wellFormed.mem_children.mp (by rw [(hlevel p hstand.inner).children]; exact hmem))
        (((hlevel p hstand.inner).name n hmem).trans hname) heval
      rw [holders_cons_of_top htop ho.found] at hwaits ⊢
      exact hwaits.queue haw hl hl'
    · exact hwaits.of_levels hlevels

theorem Visiting.kept_items (h : Visiting w f more root rs p r n) (ho : Orderly w f more root rs)
    (hname : w.space.tree.name n = "items") (hd : descend w.space.tree f.scan r.key n = .ok (t', scan))
    (hw : w' = { w with
      space := { w.space with tree := t' }
      frames := { f with scan } :: more }) : Kept w f more r n w' { f with scan } := by
  have hwf := h.wellFormed
  have hne : w.space.tree.name n ≠ "repeat" := by rw [hname]; decide
  have hstand := h.running.standing
  subst hw
  rcases descend_ok hwf h.parent? hd with ⟨-, rfl, rfl⟩ | ⟨first, next, hf, rfl, hnext⟩
  · exact h.kept_of_around ho hne ((Quiet.refl hwf).around hwf) (fun _ hm => hm) h.frames.symm rfl ho.waits
  -- the node behind the group is no copy, and neither is the first one in it
  have hnew : t'.WellFormed ∧ Tidy t' f ∧ WaitsOn t' (holders (documents w) (f :: more)) w.sink
      ∧ (∀ m, w.space.tree.Live m → t'.Live m) ∧ ¬ Copied t' next ∧ t'.firstChild? n = some first := by
    rcases hnext with ⟨hn, rfl⟩ | ⟨-, hm⟩
    · exact ⟨hwf, ho.tidy, ho.waits, fun _ hm => hm, not_copied_next hwf hn hne, hf⟩
    · have hstay : ∀ m, w.space.tree.Live m → Stays w.space.tree t' m := fun m hl => stays_of_marked hwf hm hl
      refine ⟨hm.wellFormed, ho.tidy.of_standing hwf hm.wellFormed h.idle hstand fun q hq hqp =>
        level_of_added hwf h.isRoot hm ((Tree.trunk_inner hwf h.isRoot.live h.isRoot.parent?).of_under hq
          hstand.inner) hqp, ?_, hm.live, fun hc => ?_, ?_⟩
      · exact ho.below.waitsOn_of_step hwf (around_of_added hwf h.fresh h.isRoot.parent? hstand.inner hm) ho.found
          (fun _ _ _ hx => hx.of_live hwf hstay) ho.waits
      · have hnop := hc.name
        rw [Tree.name, hm.self] at hnop
        revert hnop
        simp
      · unfold Tree.firstChild? Tree.children
        rw [hm.node n (hwf.live_of_parent h.parent?).1 (hwf.parent_ne h.parent?).symm]
        exact hf
  obtain ⟨hwf', htidy, hwaits, hlive, hback, hfirst⟩ := hnew
  refine ⟨⟨rfl, ⟨fun pos hpos => ?_, htidy.next, htidy.first, htidy.behind⟩, hwaits⟩,
    ⟨rfl, rfl, rfl⟩, h.idle, fun hb => ?_, fun m hm => .inl (hlive m hm)⟩
  · rcases List.mem_cons.mp hpos with rfl | hpos
    · exact not_copied_first hwf' hfirst
    rcases List.mem_cons.mp hpos with rfl | hpos
    · exact hback
    · exact htidy.scan pos hpos
  · rw [h.running.base] at hb
    change f.scan.length + 1 + 1 = f.scan.length at hb
    omega

/-- A loop that goes on keeps in order what is kept around it. -/
theorem Tidy.of_continues {S S' : Loop.Turn} (hwf : S.tree.WellFormed) (hroot : IsRoot S.tree root)
    (hs : Standing S.tree root q key outer S.scan) (hp : S.tree.parent? S.loop.anchor = some q)
    (hf : f.run = none) (hscan : f.scan = S.scan) (hloops : f.loops = outer)
    (hc : Continues S q S') (htidy : Tidy S.tree f)
    (hfirst : S.loop.count = 0 → ¬ Copied S.tree S.loop.anchor)
    (hbehind : ∀ c, S.tree.nextSibling? S.loop.anchor = some c → ¬ Copied S.tree c) :
    Tidy S'.tree { f with scan := S'.scan, loops := S'.loop :: outer } := by
  have hadv := hc.advanced
  have hlevel : ∀ m, Under S.tree m q → m ≠ q → Level S.tree S'.tree m := fun m hm hne =>
    level_of_advanced hwf hroot hs.inner hp hadv hm hne
  subst hloops
  rw [← hscan] at hs
  have htidy' : Tidy S'.tree f := htidy.of_standing hwf hadv.wellFormed hf hs hlevel
  obtain ⟨first, hscan', hfirst'⟩ := hc.begins
  refine ⟨fun pos hpos => ?_, htidy'.next, fun l hl hcount => ?_, fun l hl c hn => ?_⟩
  · replace hpos : pos ∈ S'.scan := hpos
    rw [hscan', ← hscan] at hpos
    rcases List.mem_cons.mp hpos with rfl | hpos
    · exact not_copied_first hadv.wellFormed hfirst'
    · exact htidy'.scan pos hpos
  · rcases List.mem_cons.mp hl with rfl | hl
    · -- in its first run the loop is where it was
      rw [hc.count] at hcount
      have hzero : S.loop.count = 0 := by omega
      obtain ⟨htree, hanchor⟩ := hc.firstRun hzero
      rw [htree, hanchor]
      exact hfirst hzero
    · exact htidy'.first l hl hcount
  · rcases List.mem_cons.mp hl with rfl | hl
    · rw [next_of_advanced hwf hp hadv] at hn
      have hlc := (hwf.live_of_parent (hwf.parent?_of_nextSibling? hp hn)).1
      exact fun hcop => hbehind c hn ((stays_of_advanced hwf hp hadv hlc).copied hcop)
    · exact htidy'.behind l hl c hn

/-- A loop that ends leaves in order what is kept around it. -/
theorem Tidy.of_ends {S S' : Loop.Turn} (he : Loop.Turn.Ends S S') (hscan : f.scan = S.scan) (htidy : Tidy S.tree f)
    (hbehind : ∀ c, S.tree.nextSibling? S.loop.anchor = some c → ¬ Copied S.tree c) :
    Tidy S'.tree { f with scan := S'.scan } := by
  rw [he.tree, he.scan]
  refine ⟨fun pos hpos => ?_, htidy.next, htidy.first, htidy.behind⟩
  replace hpos : pos ∈ S.behind := hpos
  unfold Loop.Turn.behind at hpos
  rw [← hscan] at hpos
  cases hs : S.tree.nextSibling? S.loop.anchor with
  | none =>
    rw [hs] at hpos
    exact htidy.scan pos hpos
  | some z =>
    rw [hs] at hpos
    rcases List.mem_cons.mp hpos with rfl | hpos
    · exact hbehind z hs
    · exact htidy.scan pos hpos

theorem Visiting.kept_loop (h : Visiting w f more root rs p r n) (ho : Orderly w f more root rs)
    (hname : w.space.tree.name n = "repeat") (hn : ¬ Copied w.space.tree n)
    (hl : startLoop f r.key n w = .ok u w') : ∃ g, Kept w f more r n w' g := by
  obtain ⟨l, t₁, next, S, henter, hnext, hw⟩ := startLoop_ok hl
  obtain ⟨hdecl, rfl⟩ := Loop.enter_ok henter
  obtain ⟨hcount, hkey, -, hanchor⟩ := Loop.declared_ok hdecl
  have hwf := h.wellFormed
  have hpn := h.parent?
  have he := Loop.entered hwf hpn
  generalize (Loop.dropCopies w.space.tree n).setSeq n 0 = t₁ at he hnext hw
  have hstand := h.running.standing
  have hi := hstand.inner
  have hln : t₁.Live n := (he.live n).mpr ⟨(hwf.live_of_parent hpn).1, fun c hc hu => by
    obtain ⟨hpc, hne⟩ := Loop.parent?_of_mem_copies hwf hpn hc
    exact hne (hwf.siblings_disjoint hpc hpn hu .self)⟩
  have hpn₁ : t₁.parent? l.anchor = some p := by
    rw [hanchor, he.parent? n hln, hpn]
  have hstep := Loop.Turn.next_ok (p := p) he.wellFormed hpn₁ hnext
  have hfeed : SameFeed (feedOf { w with space := { w.space with tree := t₁ } } f l) S.feed := by
    cases next with
    | true => exact hstep.feed
    | false => exact hstep.feed
  have hturn := turned_afterTurn (w := { w with space := { w.space with tree := t₁ } }) h.frames hfeed
  generalize afterTurn { w with space := { w.space with tree := t₁ } } f S = w₂ at hturn hw
  have ha := around_of_entered hwf h.fresh h.isRoot.parent? hi hpn he
  have hroot₁ := ha.isRoot root h.isRoot
  have hstand₁ := standing_of_entered hwf h.isRoot.live hpn he hstand
  -- dropping the copies leaves everything in order, and nothing that waits is dropped
  have htidy : Tidy t₁ f := ho.tidy.of_standing hwf he.wellFormed h.idle hstand fun q hq hqp =>
    level_of_entered hwf h.isRoot hi hpn he hq hqp
  have hwaits : WaitsOn t₁ (holders (documents w) (f :: more)) w.sink :=
    ho.below.waitsOn_of_step hwf ha ho.found (fun loops hloops x hx => hx.of_entered hwf hpn hname he
      fun l hl => hstand.under_anchor (mem_of_mem_levelLoops hloops hl)) ho.waits
  have hbehind : ∀ c, t₁.nextSibling? l.anchor = some c → ¬ Copied t₁ c := fun c hc =>
    not_copied_behind hwf hpn hname he (hanchor ▸ hc)
  have hlost : ∀ m, w.space.tree.Live m → t₁.Live m
      ∨ w.space.tree.name n = "repeat" ∧ ∃ c ∈ copies w.space.tree n, Under w.space.tree c m := by
    intro m hm
    by_cases hc : ∃ c ∈ copies w.space.tree n, Under w.space.tree c m
    · exact .inr ⟨hname, hc⟩
    · exact .inl ((he.live m).mpr ⟨hm, fun c hcm hu => hc ⟨c, hcm, hu⟩⟩)
  have hdocs : documents w₂ = documents w := hturn.steady.docs
  cases next with
  | true =>
    have hc : Continues _ p S := hstep
    simp only [if_true, hturn.frames] at hw
    subst hw
    have hfirst : ¬ Copied t₁ l.anchor := fun hcop => by
      rw [hanchor] at hcop
      exact hn ((stays_of_entered hwf hpn hname he hln).copied hcop)
    refine ⟨{ f with scan := S.scan, loops := S.loop :: f.loops }, ⟨rfl, ?_, ?_⟩, ⟨rfl, rfl, rfl⟩, h.idle,
      fun hb => ?_, fun m hm => (hlost m hm).imp_left fun hm => ?_⟩
    · show Tidy w₂.space.tree _
      rw [hturn.tree]
      exact Tidy.of_continues (f := f) he.wellFormed hroot₁ hstand₁ hpn₁ h.idle rfl rfl hc htidy (fun _ => hfirst) hbehind
    · show WaitsOn w₂.space.tree (holders (documents w₂) _) w₂.sink
      have hone : S.loop.count < 2 := by
        rw [hc.count]
        show l.count + 1 < 2
        omega
      rw [hturn.tree, hturn.sink, hdocs, holders_cons_congr (f := f)
        (g := { f with scan := S.scan, loops := S.loop :: f.loops }) ⟨rfl, rfl, rfl⟩ (levelLoops_cons_of_lt hone)]
      exact ho.below.transfer hwf ha.wellFormed (fun r hm => ha.trunk r hm (ho.below.isRoot hm))
        |>.waitsOn_of_step he.wellFormed (around_of_advanced he.wellFormed h.fresh hroot₁.parent? hstand₁.inner
          hpn₁ hc.advanced) ho.found (fun _ _ _ hx => hx.of_live he.wellFormed fun m hm =>
            stays_of_advanced he.wellFormed hpn₁ hc.advanced hm) hwaits
    · obtain ⟨first, hscan, -⟩ := hc.begins
      replace hb : S.scan.length = r.base := hb
      rw [hscan, h.running.base] at hb
      change f.scan.length + 1 = f.scan.length at hb
      omega
    · show w₂.space.tree.Live m
      rw [hturn.tree]
      exact hc.advanced.live m hm
  | false =>
    have hends : Loop.Turn.Ends _ S := hstep
    have htree : w₂.space.tree = t₁ := hturn.tree.trans hends.tree
    simp only [Bool.false_eq_true, if_false] at hw
    subst hw
    refine ⟨{ f with scan := S.scan }, ⟨hturn.frames, ?_, ?_⟩, ⟨rfl, rfl, rfl⟩, h.idle, fun _ c hc => ?_,
      fun m hm => (hlost m hm).imp_left fun hm => by rw [htree]; exact hm⟩
    · rw [hturn.tree]
      exact Tidy.of_ends (f := f) hends rfl htidy hbehind
    · rw [htree, hturn.sink, hdocs]
      exact hwaits
    · rw [htree] at hc ⊢
      exact hbehind c (hanchor ▸ hc)

theorem Visiting.kept_writer {v : Visit} (h : Visiting w f more root rs p r n) (ho : Orderly w f more root rs)
    (hdepth : w.depth = levelsOf (f :: more)) (hname : w.space.tree.name n = "writer")
    (hv : visitWriter o f n w = .ok v w') : Kept w f more r n w' f := by
  have hne : w.space.tree.name n ≠ "repeat" := by rw [hname]; decide
  rw [visitWriter, Action.get_bind_eq_ok] at hv
  cases hs : w.sink with
  | none =>
    simp only [hs] at hv
    obtain ⟨_, w₁, h₁, hv⟩ := Action.bind_eq_ok.mp hv
    obtain ⟨-, rfl⟩ := Action.pure_eq_ok.mp hv
    have hopen := sinkOpened h.wellFormed (h.atWriter hname) h₁
    have hq := hopen.step.quiet
    obtain ⟨s, hsink, hl, -⟩ := hopen.sink
    refine h.kept_of_around ho hne (hq.around h.wellFormed) hq.live (by rw [hopen.rest]) (by rw [hopen.rest]; rfl) ?_
    rw [hsink]
    exact .of_replicate (by rw [hl, length_holders, hdepth])
  | some s =>
    simp only [hs] at hv
    obtain ⟨s', w₁, h₁, hv⟩ := Action.bind_eq_ok.mp hv
    have ht := taken_takeSink h.wellFormed h₁
    rw [Action.modify_bind_eq_ok] at hv
    obtain ⟨-, rfl⟩ := Action.pure_eq_ok.mp hv
    have hq := quiet_of_refreshed h.wellFormed ht.tree
    refine h.kept_of_around ho hne (hq.around h.wellFormed) hq.live ?_ ?_ ?_
    · show w₁.frames = w.frames
      rw [ht.rest]
    · show documents w₁ = documents w
      rw [ht.rest]
      rfl
    · show WaitsOn w₁.space.tree _ w₁.sink
      rw [show w₁.sink = none by rw [ht.rest]]
      exact .closed

/-- A visit to an import gives no node up. -/
theorem live_visitImport {v : Visit} (hwf : w.space.tree.WellFormed)
    (hdocs : ∀ d ∈ documents w, IsRoot w.space.tree d) (hv : visitImport o f n w = .ok v w') {m : NodeId}
    (hm : w.space.tree.Live m) : w'.space.tree.Live m := by
  rw [visitImport, Action.get_bind_eq_ok] at hv
  generalize w.space.tree.attr? n "type" = kind at hv
  split at hv
  · cases hi : (w.visible f).currentIndex with
    | none =>
      simp only [hi] at hv
      exact (Action.failAt_eq_ok.mp hv).elim
    | some i =>
      cases hc : (w.visible f).current? with
      | none =>
        simp only [hi, hc] at hv
        exact (Action.failAt_eq_ok.mp hv).elim
      | some c =>
        simp only [hi, hc] at hv
        obtain ⟨_, w₁, h₁, hv⟩ := Action.bind_eq_ok.mp hv
        obtain ⟨-, rfl⟩ := Action.pure_eq_ok.mp hv
        obtain ⟨d, hd, rfl⟩ := onDesk_ok h₁
        exact Import.live_edit hwf (hdocs c.root (List.mem_of_getElem? (current_document hi hc).2)).parent? hd hm
  · obtain ⟨d, w₁, h₁, hv⟩ := Action.bind_eq_ok.mp hv
    obtain ⟨_, w₂, h₂, hv⟩ := Action.bind_eq_ok.mp hv
    obtain ⟨-, rfl⟩ := Action.pure_eq_ok.mp hv
    obtain ⟨d₁, hd₁, rfl⟩ := onDesk_ok h₁
    obtain ⟨d₂, hd₂, rfl⟩ := onDesk_ok h₂
    obtain ⟨e, hg⟩ := Import.grafted_place (d := ⟨w.space.tree, w.library⟩) hwf hd₁
    exact Import.live_edit (d := ⟨d₁.tree, d₁.library⟩) hg.wellFormed hg.parent?_root hd₂ (hg.live m hm)
  · obtain ⟨-, rfl⟩ := Action.pure_eq_ok.mp hv
    exact hm
  · exact (Action.failAt_eq_ok.mp hv).elim

/-- Every visit keeps in order what is kept. -/
theorem Visiting.kept {v : Visit} (h : Visiting w f more root rs p r n) (ho : Orderly w f more root rs)
    (hdocs : ∀ d ∈ documents w, IsRoot w.space.tree d)
    (hsees : f.seesSecondary = true → rs = [] ∧ root ∉ documents w) (hdepth : w.depth = levelsOf (f :: more))
    (hn : ¬ Copied w.space.tree n) (hv : Walk.visit o f r.key n w = .ok v w') :
    ∃ g, Kept w f more r n w' g := by
  rw [Walk.visit, Action.get_bind_eq_ok] at hv
  obtain ⟨tag, htag, hv⟩ := Action.ofExcept_bind_eq_ok.mp hv
  have hname := tagOf_ok htag
  cases tag with
  | item =>
    obtain ⟨_, w₁, h₁, hv⟩ := Action.bind_eq_ok.mp hv
    obtain ⟨_, w₂, h₂, hv⟩ := Action.bind_eq_ok.mp hv
    obtain ⟨-, rfl⟩ := Action.pure_eq_ok.mp hv
    exact ⟨f, h.kept_item ho hname h₁ h₂⟩
  | items =>
    obtain ⟨⟨t, scan⟩, hd, hv⟩ := Action.ofExcept_bind_eq_ok.mp hv
    obtain ⟨_, w₁, h₁, hv⟩ := Action.bind_eq_ok.mp hv
    obtain ⟨_, w₂, h₂, hv⟩ := Action.bind_eq_ok.mp hv
    obtain ⟨-, rfl⟩ := Action.pure_eq_ok.mp hv
    rw [modifyTree_eq_ok.mp h₁] at h₂
    have hw := modifyFrame_eq_ok.mp h₂
    simp only [h.frames] at hw
    exact ⟨_, h.kept_items ho hname hd hw⟩
  | loop =>
    obtain ⟨_, w₁, h₁, hv⟩ := Action.bind_eq_ok.mp hv
    obtain ⟨-, rfl⟩ := Action.pure_eq_ok.mp hv
    exact h.kept_loop ho hname hn h₁
  | document =>
    obtain ⟨ha, hrest, -⟩ := h.around_document (fun r hm => ho.below.isRoot hm) hdocs hsees hv
    have hwaits := ho.waitsOn_of_around h.wellFormed h.isRoot ha ho.waits
    refine ⟨f, h.kept_of_around ho (by rw [hname]; decide) ha
      (fun m hm => live_visitImport h.wellFormed hdocs hv hm) (by rw [hrest]) (by rw [hrest]; rfl) ?_⟩
    rw [show w'.sink = w.sink by rw [hrest]]
    exact hwaits
  | writer => exact ⟨f, h.kept_writer ho hdepth hname hv⟩
  | nop =>
    obtain ⟨-, rfl⟩ := Action.pure_eq_ok.mp hv
    exact ⟨f, h.kept_of_around ho (by rw [hname]; decide) ((Quiet.refl h.wellFormed).around h.wellFormed)
      (fun _ hm => hm) rfl rfl ho.waits⟩

/-- Behind a visit the run goes on, or the walk goes on elsewhere. -/
theorem Kept.resume (h : Kept w f more r n w₁ g) (hr : Walk.resume r n w₁ = .ok u w') :
    w' = { w₁ with frames := w'.frames } ∧ ∃ g', GoesOn w' g' more := by
  have hw := Action.modify_eq_ok.mp hr
  simp only [h.frames] at hw
  subst hw
  by_cases hb : g.scan.length = r.base
  · rw [if_pos hb]
    refine ⟨rfl, _, rfl, ⟨h.tidy.scan, fun r' n' hr' hn' => ?_, h.tidy.first, h.tidy.behind⟩, h.waits⟩
    cases hr'
    exact h.behind hb n' hn'
  · rw [if_neg hb]
    exact ⟨rfl, g, h.frames, h.tidy, h.waits⟩

/-! ## The end of a run -/

/-- What is written up at the end of a run of a loop leaves the innermost level empty, and the other levels
    belong to what is around the loop. -/
theorem RunEnded.waitsOn_of_writtenUp (h : RunEnded w f more root p key parents) (ho : Orderly w f more root rs)
    (hname : w.space.tree.name p = "repeat") (hloops : f.loops = l :: outer)
    (hw : (if (w.space.tree.computed p).seq = some 0 then pushLevel else completeLevel o) w = .ok u w₁)
    (k : NodeId × List Loop) :
    WaitsOn w₁.space.tree (k :: holders (documents w) ({ f with loops := outer } :: more)) w₁.sink := by
  have hwf := h.wellFormed
  have hwaits := ho.waits
  have hstand := h.standing
  rw [hloops] at hstand
  obtain ⟨q, -, -, -, -, hseq, hstarted⟩ := hstand.cases_repeat hname
  by_cases hc : 2 ≤ l.count
  · -- the level of the loop is completed
    rw [if_neg (by rw [hseq, Option.some.injEq]; omega)] at hw
    rw [holders_cons, hloops, levelLoops_cons_of_le hc, List.map_cons, List.cons_append] at hwaits
    refine waitsOn_completeLevel hwf (fun hr k hk x hx => ?_) hwaits hw k
    have ha : Around (root :: rs) _ _ := (quiet_of_refreshed hwf hr).around hwf
    rcases List.mem_append.mp hk with hk | hk
    · obtain ⟨loops, -, rfl⟩ := List.mem_map.mp hk
      rw [ho.found] at hx ⊢
      exact hx.of_around hwf ha List.mem_cons_self h.isRoot
    · obtain ⟨hm, hroot⟩ := ho.below.mem_holders hk
      exact hx.of_around hwf ha (List.mem_cons_of_mem _ hm) hroot
  · -- a level is opened for it
    rw [if_pos (by rw [hseq, Option.some.injEq]; omega)] at hw
    rw [holders_cons, hloops, levelLoops_cons_of_lt (Nat.lt_of_not_le hc)] at hwaits
    rw [pushLevel_eq_ok.mp hw]
    exact hwaits.push k

/-- Where the loop around a run stands, before and behind what is written up. -/
theorem RunEnded.tidy_of_writtenUp (h : RunEnded w f more root p key parents) (ho : Orderly w f more root rs)
    (hup : WrittenUp w w₁) : Tidy w₁.space.tree f := by
  have ha : Around [root] _ _ := (quiet_of_refreshed h.wellFormed hup.tree).around h.wellFormed
  exact ho.tidy.of_standing h.wellFormed ha.wellFormed h.idle h.standing fun q hq _ =>
    Work.level_of_around h.wellFormed ha List.mem_cons_self h.isRoot
      ((Tree.trunk_inner h.wellFormed h.isRoot.live h.isRoot.parent?).of_under hq h.standing.inner)

/-- The loops around the innermost one. -/
theorem Tidy.tail (h : Tidy t f) (hloops : f.loops = l :: outer) : Tidy t { f with loops := outer } where
  scan := h.scan
  next := h.next
  first l hl := h.first l (by rw [hloops]; exact List.mem_cons_of_mem _ hl)
  behind l hl := h.behind l (by rw [hloops]; exact List.mem_cons_of_mem _ hl)

/-- A loop that goes on: its level is there, and what is kept around it is in order. -/
theorem AtLoopEnd.goesOn_of_continues {S : Loop.Turn} (h : AtLoopEnd w f more root p q l outer)
    (hfresh : root ∉ rs) (hbelow : Stack w.space.tree (documents w) more rs)
    (hfound : rootOf (documents w) f = some root) (htidy : Tidy w.space.tree f)
    (hwaits : ∀ k, WaitsOn w.space.tree (k :: holders (documents w) ({ f with loops := outer } :: more)) w.sink)
    (hturn : Turned w f more S w₁) (hc : Continues ⟨l, w.space.tree, w.feedOf f l, f.scan⟩ q S) :
    GoesOn { w₁ with frames := { f with scan := S.scan, loops := S.loop :: outer } :: more }
      { f with scan := S.scan, loops := S.loop :: outer } more := by
  have hpa : w.space.tree.parent? l.anchor = some q := by rw [h.anchor, h.parent]
  have hl : l ∈ f.loops := by rw [h.loops]; exact List.mem_cons_self
  have hone := h.started
  refine ⟨rfl, ?_, ?_⟩
  · show Tidy w₁.space.tree _
    rw [hturn.tree]
    refine Tidy.of_continues (f := { f with loops := outer }) h.wellFormed h.isRoot h.standing hpa h.idle rfl rfl
      hc (htidy.tail h.loops) (fun h0 => ?_) (htidy.behind l hl)
    change l.count = 0 at h0
    omega
  · have htwo : 2 ≤ S.loop.count := by
      rw [hc.count]
      show 2 ≤ l.count + 1
      omega
    show WaitsOn w₁.space.tree (holders (documents w₁) _) w₁.sink
    rw [hturn.tree, hturn.sink, show documents w₁ = documents w from hturn.steady.docs]
    refine hbelow.waitsOn_of_step (f := { f with scan := S.scan, loops := S.loop :: outer }) h.wellFormed
      (around_of_advanced h.wellFormed hfresh h.isRoot.parent? h.standing.inner hpa hc.advanced) hfound
      (fun _ _ _ hx => hx.of_live h.wellFormed fun m hm => stays_of_advanced h.wellFormed hpa hc.advanced hm) ?_
    rw [holders_cons, levelLoops_cons_of_le htwo]
    exact hwaits _

/-- A loop that ends: its level is closed. -/
theorem AtLoopEnd.goesOn_of_ends {S : Loop.Turn} (h : AtLoopEnd w f more root p q l outer)
    (htidy : Tidy w.space.tree f)
    (hwaits : ∀ k, WaitsOn w.space.tree (k :: holders (documents w) ({ f with loops := outer } :: more)) w.sink)
    (hturn : Turned w f more S w₁) (he : Loop.Turn.Ends ⟨l, w.space.tree, w.feedOf f l, f.scan⟩ S)
    (hd : dropLoop outer w₁ = .ok u w') : GoesOn w' { f with scan := S.scan, loops := outer } more := by
  rw [dropLoop_ok hturn hd]
  have hl : l ∈ f.loops := by rw [h.loops]; exact List.mem_cons_self
  refine ⟨rfl, ?_, ?_⟩
  · show Tidy w₁.space.tree _
    rw [hturn.tree]
    exact Tidy.of_ends (f := { f with loops := outer }) he rfl (htidy.tail h.loops) (htidy.behind l hl)
  · show WaitsOn w₁.space.tree (holders (documents w₁) _) (w₁.sink.map Sink.pop)
    rw [hturn.tree, he.tree, hturn.sink, show documents w₁ = documents w from hturn.steady.docs]
    exact (hwaits (root, [])).pop

/-- Asking the loops around a run keeps in order what is kept, and gives no node up. -/
theorem RunEnded.goesOn (h : RunEnded w f more root p key parents) (hfresh : root ∉ rs)
    (ho : Orderly w f more root rs) (hc : closeLoops o parents w = .ok u w') :
    (∃ g, GoesOn w' g more) ∧ ∀ m, w.space.tree.Live m → w'.space.tree.Live m := by
  induction parents generalizing w f p key with
  | nil => cases h.parents
  | cons parent parents ih =>
    obtain ⟨rfl, -⟩ := List.cons.inj h.parents
    by_cases hname : w.space.tree.name parent = "repeat"
    · obtain ⟨_, w₁, h₁, hc⟩ := (closeLoops_cons_ok hname).mp hc
      obtain ⟨hup, -⟩ := writtenUp h.wellFormed h₁
      have hf₁ : w₁.frames = f :: more := by rw [hup.rest]; exact h.frames
      have hdocs₁ : documents w₁ = documents w := by rw [hup.rest]; rfl
      have htidy₁ := h.tidy_of_writtenUp ho hup
      have hbelow₁ : Stack w₁.space.tree (documents w₁) more rs := by
        rw [hdocs₁]
        exact ho.below.transfer h.wellFormed hup.tree.wellFormed fun r hm =>
          (quiet_of_refreshed h.wellFormed hup.tree).shape r (ho.below.isRoot hm)
      have hfound₁ : rootOf (documents w₁) f = some root := by rw [hdocs₁]; exact ho.found
      rw [askLoop, Action.get_bind_eq_ok] at hc
      simp only [hf₁] at hc
      cases hloops : f.loops with
      | nil =>
        simp only [hloops] at hc
        rw [strayLoop, Action.get_bind_eq_ok] at hc
        exact (Action.fail_eq_ok.mp hc).elim
      | cons l outer =>
        simp only [hloops] at hc
        obtain ⟨⟨next, l'⟩, w₂, h₂, hc⟩ := Action.bind_eq_ok.mp hc
        have hwaits₁ : ∀ k, WaitsOn w₁.space.tree
            (k :: holders (documents w₁) ({ f with loops := outer } :: more)) w₁.sink := fun k => by
          rw [hdocs₁]
          exact h.waitsOn_of_writtenUp ho hname hloops h₁ k
        obtain ⟨q, hat⟩ := h.atLoopEnd hname hloops hup
        obtain ⟨S, rfl, hturn, hstep⟩ := hat.turned h₂
        cases next with
        | true =>
          have hstep : Continues ⟨l, w₁.space.tree, w₁.feedOf f l, f.scan⟩ q S := hstep
          have hw := modifyFrame_eq_ok.mp hc
          simp only [hturn.frames] at hw
          subst hw
          refine ⟨⟨_, hat.goesOn_of_continues hfresh hbelow₁ hfound₁ htidy₁ hwaits₁ hturn hstep⟩, fun m hm => ?_⟩
          show w₂.space.tree.Live m
          rw [hturn.tree]
          exact hstep.advanced.live m (hup.tree.live m hm)
        | false =>
          have hstep : Loop.Turn.Ends ⟨l, w₁.space.tree, w₁.feedOf f l, f.scan⟩ S := hstep
          obtain ⟨_, w₃, h₃, hc⟩ := Action.bind_eq_ok.mp hc
          rw [Action.get_bind_eq_ok] at hc
          have hw₃ := dropLoop_ok hturn h₃
          have htree₃ : w₃.space.tree = w₁.space.tree := by
            rw [hw₃]
            exact hturn.tree.trans hstep.tree
          have hdocs₃ : documents w₃ = documents w₁ := by
            rw [hw₃]
            exact hturn.steady.docs
          have hgo := hat.goesOn_of_ends htidy₁ hwaits₁ hturn hstep h₃
          have hlive₃ : ∀ m, w.space.tree.Live m → w₃.space.tree.Live m := fun m hm => by
            rw [htree₃]
            exact hup.tree.live m hm
          by_cases hcas : cascades w₃.space.tree outer parent = true
          · simp only [hcas, if_true] at hc
            obtain ⟨hg, hlive⟩ := ih (h.outward hup hat hturn hstep h₃ hcas)
              ⟨hgo, by rw [htree₃, hdocs₃]; exact hbelow₁, by rw [hdocs₃]; exact hfound₁⟩ hc
            exact ⟨hg, fun m hm => hlive m (hlive₃ m hm)⟩
          · simp only [hcas] at hc
            obtain ⟨-, rfl⟩ := Action.pure_eq_ok.mp hc
            exact ⟨⟨_, hgo⟩, hlive₃⟩
    · obtain rfl := closeLoops_eq_ok_of_ne hname hc
      exact ⟨⟨f, ho.toGoesOn⟩, fun _ hm => hm⟩

end Stencil.Walk
