/-
  No node is given up that a walk needs.

  Slots are given up and used again at once, so a walk must not hold on to a node that is given up (`Holds`).  There
  are three occasions (`GivesUp`): a document that has been read for its walk is left, the copies of a loop are
  dropped when the loop is entered again, and static imports are replaced when a document is entered.  On none of
  them is a node given up that is held at that moment, or that is in use there (`Reached.holds_on`); and nothing is
  given up on other occasions.
-/
import Stencil.Proofs.Import.Released
import Stencil.Proofs.Walk.Intact
import Stencil.Proofs.Walk.Position

set_option autoImplicit false

namespace Stencil.Walk

open Stencil.Tree (Under Inner)
open Loop (copies)

variable {t t' : Tree} {docs rs roots aside : List NodeId} {root n m p : NodeId} {r : Run} {f g : Frame}
  {frames more : List Frame} {w w₁ w₂ w' : Walk} {o : Options} {u : Unit} {even : Prop} {progress : Progress}

/-! ## What is held -/

/-- The walk holds on to a node. -/
inductive Holds (w : Walk) : NodeId → Prop
  /-- It will go on there. -/
  | scan {f : Frame} {pos : Position} (frame : f ∈ w.frames) (mem : pos ∈ f.scan) : Holds w pos.node
  /-- A run began there. -/
  | first {f : Frame} {r : Run} (frame : f ∈ w.frames) (run : f.run = some r) : Holds w r.first
  /-- The node comes next in a run. -/
  | next {f : Frame} {r : Run} {n : NodeId} (frame : f ∈ w.frames) (run : f.run = some r)
      (next : r.next = some n) : Holds w n
  /-- A loop runs there. -/
  | anchor {f : Frame} {l : Loop} (frame : f ∈ w.frames) (mem : l ∈ f.loops) : Holds w l.anchor
  /-- A document has been read for its walk. -/
  | owned {f : Frame} {root : NodeId} (frame : f ∈ w.frames) (owned : f.owned = some root) : Holds w root
  /-- A change of output is due. -/
  | rotation {n : NodeId} (due : w.rotation = some n) : Holds w n
  /-- A secondary document. -/
  | document {d : NodeId} (mem : d ∈ documents w) : Holds w d
  /-- The main document, before the walk begins. -/
  | ready {d : Import.Placed} (ready : w.phase = .ready d) : Holds w d.root
  /-- A field waits on a level that the walk has opened. -/
  | waiting {s : Sink} {level : List Waiting} {x : Waiting} (sink : w.sink = some s)
      (opened : level ∈ s.levels.take w.depth) (mem : x ∈ level) : Holds w x.item

/-- What is held in a walk of documents whose levels are in order. -/
theorem Holds.cases (h : Holds w n) (howned : ∀ f ∈ w.frames, ∀ r, f.owned = some r → r ∈ roots)
    (hphase : w.phase = .running) (hdepth : w.depth = levelsOf w.frames)
    (hwaits : WaitsOn w.space.tree (holders (documents w) w.frames) w.sink) :
    n ∈ roots ∨ n ∈ documents w ∨ (∃ f ∈ w.frames, n ∈ nodesOf f) ∨ w.rotation = some n
      ∨ ∃ k ∈ holders (documents w) w.frames, Awaits w.space.tree k.1 k.2 n := by
  cases h with
  | scan frame mem =>
    refine .inr (.inr (.inl ⟨_, frame, ?_⟩))
    exact List.mem_append_left _ (List.mem_append_left _ (List.mem_map_of_mem mem))
  | first frame run =>
    refine .inr (.inr (.inl ⟨_, frame, List.mem_append_left _ (List.mem_append_right _ ?_)⟩))
    rw [run]
    exact List.mem_cons_self
  | next frame run next =>
    refine .inr (.inr (.inl ⟨_, frame, List.mem_append_left _ (List.mem_append_right _ ?_)⟩))
    rw [run]
    exact List.mem_cons_of_mem _ (Option.mem_toList.mpr next)
  | anchor frame mem =>
    exact .inr (.inr (.inl ⟨_, frame, List.mem_append_right _ (List.mem_map_of_mem mem)⟩))
  | owned frame owned => exact .inl (howned _ frame _ owned)
  | rotation due => exact .inr (.inr (.inr (.inl due)))
  | document mem => exact .inr (.inl mem)
  | ready ready =>
    rw [hphase] at ready
    cases ready
  | @waiting s level x sink opened mem =>
    obtain ⟨ls, below, hl, hw⟩ := hwaits s sink
    have hlen : ls.length = w.depth := by rw [hdepth, ← length_holders (documents w), hw.length_eq]
    rw [hl, ← hlen, List.take_left] at opened
    obtain ⟨i, hi, rfl⟩ := List.getElem_of_mem opened
    have hk := hw.length_eq ▸ hi
    exact .inr (.inr (.inr (.inr ⟨_, List.getElem_mem hk, (List.forall₂_iff_get.mp hw).2 i hk hi x mem⟩)))

/-- A document that is given up with its walk is one that is walked. -/
theorem Stack.owned (h : Stack t docs frames roots) (hf : f ∈ frames) (ho : f.owned = some root) : root ∈ roots := by
  induction h with
  | nil => cases hf
  | main _ _ _ howned _ =>
    rw [List.mem_singleton.mp hf, howned] at ho
    cases ho
  | «import» _ _ _ _ _ _ _ howned ih =>
    rcases List.mem_cons.mp hf with rfl | hf
    · rw [(howned _ ho).1]
      exact List.mem_cons_self
    · exact List.mem_cons_of_mem _ (ih hf)

/-- What is held between two rounds belongs to a document that is walked, or it is a secondary document. -/
theorem Holds.under (h : Holds w n) (hc : Coherent even w roots) (hi : Intact w) :
    n ∈ documents w ∨ ∃ r ∈ roots, Under w.space.tree r n := by
  rcases h.cases (fun f hf r ho => hc.stack.owned hf ho) hc.phase hc.leveled.depth hi.waits with
    hn | hn | ⟨f, hf, hn⟩ | hn | ⟨k, hk, hn⟩
  · exact .inr ⟨n, hn, .self⟩
  · exact .inl hn
  · obtain ⟨r, hr, -, -, hp⟩ := hc.stack.exists_root hf
    obtain ⟨q, hq, hin⟩ := hp.mem_nodesOf hc.wellFormed hn
    exact .inr ⟨r, hr, hin.under.trans (Tree.under_of_parent hq)⟩
  · obtain ⟨-, r, hr, hw⟩ := hc.rotation n hn
    obtain ⟨q, hq, hin⟩ := hw.parent
    exact .inr ⟨r, hr, hin.under.trans (Tree.under_of_parent hq)⟩
  · obtain ⟨q, hq, hin⟩ := hn.parent
    exact .inr ⟨k.1, (hc.stack.mem_holders hk).1, hin.under.trans (Tree.under_of_parent hq)⟩

/-- What is held between two rounds lives. -/
theorem Holds.live (h : Holds w n) (hc : Coherent even w roots) (hi : Intact w) : w.space.tree.Live n := by
  rcases h.under hc hi with hn | ⟨r, hr, hu⟩
  · exact (hc.docs n hn).live
  · exact hc.wellFormed.live_of_under (hc.stack.isRoot hr).live hu

/-! ## What is given up -/

/-- In the round behind the state `w`, a node is given up in the state `w'`; the nodes `aside` are in use there. -/
inductive GivesUp (o : Options) (w : Walk) : Walk → List NodeId → NodeId → Prop
  /-- A document that has been read for its walk has ended. -/
  | document {w₁ w₂ : Walk} {f : Frame} {more : List Frame} {root n : NodeId} (rotated : rotate o w = .ok () w₁)
      (frames : w₁.frames = f :: more) (ended : takeRun f = none) (written : completeLevel o w₁ = .ok () w₂)
      (owned : f.owned = some root) (below : Under w₂.space.tree root n) :
      GivesUp o w { w₂ with frames := more, sink := w₂.sink.map Sink.pop, depth := w₂.depth - 1 } [] n
  /-- A loop is entered that has copies behind it. -/
  | copy {w₁ : Walk} {g : Frame} {r : Run} {node c n : NodeId} {l : Loop} (taken : TakesUp o w g r w₁)
      (next : r.next = some node) (tag : tagOf w₁.space.tree node = .ok .loop)
      (declared : Loop.declared w₁.space.tree node r.key (w₁.visible g) = .ok l)
      (copy : c ∈ copies w₁.space.tree node) (below : Under w₁.space.tree c n) :
      GivesUp o w w₁ [r.first, node] n
  /-- A document is entered that has static imports. -/
  | static {w₁ w₂ w₃ : Walk} {g : Frame} {r : Run} {node n : NodeId} {e : Entry} {aside : List NodeId}
      (taken : TakesUp o w g r w₁) (next : r.next = some node)
      (visited : visit o g r.key node w₁ = .ok (.enter e) w₂) (resumed : resume r node w₂ = .ok () w₃)
      (replaced : Import.GivesUpIn o w₃.loader e.document ⟨w₃.space.tree, w₃.library⟩ aside n) :
      GivesUp o w w₃ (e.document.root :: aside) n

/-- No node is given up with a document that is left while it is held. -/
theorem Coherent.not_holds_document (hc : Coherent even w (root :: rs)) (hi : Intact w) (hf : w.frames = f :: more)
    (ht : takeRun f = none) (hrot : w.rotation = none) (h₁ : completeLevel o w = .ok u w₁)
    (howned : f.owned = some m) (hn : Under w₁.space.tree m n) :
    ¬ Holds { w₁ with frames := more, sink := w₁.sink.map Sink.pop, depth := w₁.depth - 1 } n := by
  intro hh
  have hs := hc.stack
  rw [hf] at hs
  obtain ⟨hroot, -, hfresh, how⟩ := hs.head
  obtain ⟨rfl, hdoc⟩ := how m howned
  have hd := levelDone hc.wellFormed h₁
  have hroot₁ := (quiet_of_refreshed hc.wellFormed hd.tree).isRoot hroot
  have hdocs : documents w₁ = documents w := by rw [hd.rest]; rfl
  have hc₁ := hc.left hf ht hrot h₁
  rcases hh.under hc₁ (hc.intact_left hi hf ht h₁) with hm | ⟨r, hr, hu⟩
  · have hne := hn.eq_of_root (hc₁.docs n hm).parent?
    replace hm : n ∈ documents w₁ := hm
    rw [hdocs, hne] at hm
    exact hdoc hm
  · have he := Under.root_unique (hc₁.stack.isRoot hr).parent? hroot₁.parent? hu hn
    exact hfresh (he ▸ hr)

/-- Nothing that is held stands in the copies of a loop that is about to be entered. -/
theorem Coherent.not_holds_copy {c node : NodeId} (hc : Coherent even w (root :: rs)) (hi : Intact w)
    (hf : w.frames = f :: more) (ht : takeRun f = some (r, g)) (hrot : w.rotation = none) (hn : r.next = some node)
    (hname : w.space.tree.name node = "repeat") (hcopy : c ∈ copies w.space.tree node)
    (hu : Under w.space.tree c n) :
    ¬ Holds { w with frames := g :: more } n ∧ n ∉ [r.first, node] := by
  have hwf := hc.wellFormed
  have hs := hc.stack
  rw [hf] at hs
  obtain ⟨hroot, -, hfresh, howned⟩ := hs.head
  obtain ⟨hsame, hloops, p, hrun, hidle⟩ := hc.visiting hf ht
  obtain ⟨hpn, hfirst⟩ := hrun.next node hn
  obtain ⟨hpc, hne⟩ := Loop.parent?_of_mem_copies hwf hpn hcopy
  -- a copy is below its loop's parent, in the document that is walked
  have hrn : Under w.space.tree root n := hrun.standing.inner.under.trans ((Tree.under_of_parent hpc).trans hu)
  have hisroot : ¬ IsRoot w.space.tree n := fun hr => by
    have := hr.parent?
    rw [hu.eq_of_root hr.parent?, hpc] at this
    cases this
  have hother : ∀ r ∈ rs, ¬ Under w.space.tree r n := fun r hr hur =>
    hfresh (Under.root_unique (hs.tail.isRoot hr).parent? hroot.parent? hur hrn ▸ hr)
  constructor
  · intro hh
    obtain ⟨ho, -⟩ := hc.orderly hi hf ht
    have hroots : ∀ f' ∈ g :: more, ∀ r', f'.owned = some r' → r' ∈ root :: rs := by
      intro f' hf' r' ho'
      rcases List.mem_cons.mp hf' with rfl | hf'
      · rw [hsame.owned] at ho'
        rw [(howned r' ho').1]
        exact List.mem_cons_self
      · exact List.mem_cons_of_mem _ (hs.tail.owned hf' ho')
    have hdepth : w.depth = levelsOf (g :: more) := by
      rw [hc.leveled.depth, hf, levelsOf_replace (congrArg repeating hloops)]
    rcases hh.cases hroots hc.phase hdepth ho.waits with hm | hm | ⟨f', hf', hm⟩ | hm | ⟨k, hk, hm⟩
    · rcases List.mem_cons.mp hm with rfl | hm
      · exact hisroot hroot
      · exact hisroot (hs.tail.isRoot hm)
    · exact hisroot (hc.docs n hm)
    · rcases List.mem_cons.mp hf' with rfl | hf'
      · -- what is kept for the walk below the loop's parent stands strictly above that
        unfold nodesOf at hm
        rw [hidle, Option.elim_none, List.append_nil] at hm
        obtain ⟨q, hq, -, hqp, hqne⟩ := hrun.standing.outside hwf hm
        by_cases hnc : n = c
        · rw [hnc, hpc] at hq
          exact hqne (Option.some.inj hq).symm
        · exact Walk.not_under_copy hwf hpn hcopy hqp (hu.of_parent hq hnc)
      · obtain ⟨r', hr', -, -, hp'⟩ := hs.tail.exists_root hf'
        obtain ⟨q, hq, hin⟩ := hp'.mem_nodesOf hwf hm
        exact hother r' hr' (hin.under.trans (Tree.under_of_parent hq))
    · rw [show w.rotation = some n from hm] at hrot
      cases hrot
    · replace hk : k ∈ holders (documents w) (g :: more) := hk
      rw [holders_cons] at hk
      rcases List.mem_append.mp hk with hk | hk
      · obtain ⟨loops, hl, rfl⟩ := List.mem_map.mp hk
        exact hm.not_under_copy hwf hpn hname
          (fun l hl' => hrun.standing.under_anchor (mem_of_mem_levelLoops hl hl')) hcopy hu
      · obtain ⟨q, hq, hin⟩ := hm.parent
        exact hother k.1 (hs.tail.mem_holders hk).1 (hin.under.trans (Tree.under_of_parent hq))
  · -- the run began at or before the loop
    intro hm
    rcases List.mem_cons.mp hm with rfl | hm
    · rw [hwf.siblings_disjoint hpc hrun.first hu .self] at hcopy
      exact hfirst (Loop.mem_copies hcopy).1
    · rw [List.mem_singleton.mp hm] at hu
      exact hne (hwf.siblings_disjoint hpc hpn hu .self)

/-- Nothing that is held is given up for the static imports of a document that is entered. -/
theorem Coherent.not_holds_static {e : Import.Placed} (hc : Coherent even w roots) (hi : Intact w)
    (hroot : IsRoot w.space.tree e.root) (hfresh : e.root ∉ roots)
    (hg : Import.GivesUpIn o w.loader e ⟨w.space.tree, w.library⟩ aside n) :
    ¬ Holds w n ∧ n ∉ e.root :: aside := by
  obtain ⟨hn, hne, haside⟩ := hg.unneeded hc.wellFormed hroot.live hroot.parent?
    (Import.closed_beyond hc.wellFormed hroot.parent?) fun hb => hb.2 .self
  refine ⟨fun hh => ?_, fun hm => (List.mem_cons.mp hm).elim hne haside⟩
  have hl := hh.live hc hi
  refine hn ⟨hl, fun hu => ?_⟩
  rcases hh.under hc hi with hm | ⟨r, hr, hur⟩
  · exact hne (hu.eq_of_root (hc.docs n hm).parent?)
  · exact hfresh (Under.root_unique (hc.stack.isRoot hr).parent? hroot.parent? hur hu ▸ hr)

/-- On no occasion a node is given up that is held or in use. -/
theorem Coherent.not_holds (hc : Coherent even w roots) (hi : Intact w) (h : GivesUp o w w' aside n) :
    ¬ Holds w' n ∧ n ∉ aside := by
  cases h with
  | @document w₁ w₂ f more m n rotated frames ended written owned below =>
    obtain ⟨hc₁, -, hrot⟩ := hc.rotate rotated
    have hs := hc₁.stack
    rw [frames] at hs
    obtain ⟨root, rs, rfl⟩ := hs.roots_cons
    exact ⟨hc₁.not_holds_document (hc.intact_rotate hi rotated) frames ended hrot written owned below,
      List.not_mem_nil⟩
  | @copy w₂ g r node c n l taken next tag declared copy below =>
    obtain ⟨w₁, f, more, rotated, frames, ht, rfl⟩ := taken
    obtain ⟨hc₁, -, hrot⟩ := hc.rotate rotated
    have hs := hc₁.stack
    rw [frames] at hs
    obtain ⟨root, rs, rfl⟩ := hs.roots_cons
    exact hc₁.not_holds_copy (hc.intact_rotate hi rotated) frames ht hrot next (tagOf_ok tag) copy below
  | @static w₂ w₃ w₄ g r node n e aside taken next visited resumed replaced =>
    obtain ⟨w₁, f, more, rotated, frames, ht, rfl⟩ := taken
    obtain ⟨hc₁, -, hrot⟩ := hc.rotate rotated
    have hs := hc₁.stack
    rw [frames] at hs
    obtain ⟨root, rs, rfl⟩ := hs.roots_cons
    obtain ⟨hc₂, -, hfollows⟩ := hc₁.resumed frames ht hrot next visited resumed
    have hi₂ := hc₁.intact_resumed (hc.intact_rotate hi rotated) frames ht hrot next visited resumed
    cases hfollows with
    | enter _ he => exact hc₂.not_holds_static hi₂ he.isRoot he.fresh replaced

/-! ## Nothing else is given up -/

/-- A visit to a loop enters the loop. -/
theorem visit_loop {v : Visit} {key : String} (hname : w.space.tree.name n = "repeat")
    (h : visit o f key n w = .ok v w') : tagOf w.space.tree n = .ok .loop
      ∧ ∃ l, Loop.declared w.space.tree n key (w.visible f) = .ok l := by
  rw [visit, Action.get_bind_eq_ok] at h
  have htag : tagOf w.space.tree n = .ok .loop := by
    unfold tagOf
    rw [hname]
    rfl
  obtain ⟨tag, ht, h⟩ := Action.ofExcept_bind_eq_ok.mp h
  rw [htag] at ht
  cases ht
  obtain ⟨_, w₁, h₁, -⟩ := Action.bind_eq_ok.mp h
  obtain ⟨l, t₁, -, -, hl, -⟩ := startLoop_ok h₁
  exact ⟨htag, l, (Loop.enter_ok hl).1⟩

theorem live_numberLoops {k : Nat} {ns : List NodeId} : (numberLoops k t ns).2.Live n ↔ t.Live n := by
  induction ns generalizing t k with
  | nil => rfl
  | cons m ns ih =>
    unfold numberLoops
    split
    · rw [ih]
      exact Tree.live_modify _ _ _ _
    · exact ih

/-- What lives when a document is entered lives on, but for what is given up for its static imports. -/
theorem live_of_enter {e : Entry} (hwf : w.space.tree.WellFormed) (hroot : IsRoot w.space.tree e.document.root)
    (h : enter o e w = .ok u w') (hn : w.space.tree.Live n) : w'.space.tree.Live n
      ∨ ∃ aside, Import.GivesUpIn o w.loader e.document ⟨w.space.tree, w.library⟩ aside n := by
  obtain ⟨d, k, t, hd, ht, rfl⟩ := enter_ok h
  refine (Import.live_of_resolve hwf hroot.live hroot.parent? hd hn).imp_left fun hl => ?_
  have hl' : (numberLoops w.nextLoop d.tree (d.tree.descendants e.document.root)).2.Live n :=
    live_numberLoops.mpr hl
  rw [ht] at hl'
  exact hl'

/-- What lives before a round lives behind it, unless it is given up. -/
theorem Coherent.live_or_givesUp (hc : Coherent even w roots) (hi : Intact w)
    (hr : Walk.round o w = .ok progress w') (hn : w.space.tree.Live n) :
    w'.space.tree.Live n ∨ ∃ w₁ aside, GivesUp o w w₁ aside n := by
  obtain ⟨w₁, rotated, hr⟩ := round_ok hr
  obtain ⟨hc₁, -, hrot⟩ := hc.rotate rotated
  have hi₁ := hc.intact_rotate hi rotated
  have hn₁ : w₁.space.tree.Live n := by
    rcases hc.rotate_ok rotated with ⟨rfl, -⟩ | ⟨m, r, f, more, -, ho⟩
    · exact hn
    · exact ho.step.quiet.live n hn
  rcases hr with ⟨-, hr⟩ | ⟨f, more, hf, hr⟩
  · rcases finish_ok hr with ⟨-, -, rfl⟩ | ⟨s, -, -, rfl⟩
    · exact .inl hn₁
    · rw [keep_rest]
      exact .inl hn₁
  have hs := hc₁.stack
  rw [hf] at hs
  obtain ⟨root, rs, rfl⟩ := hs.roots_cons
  rcases hr with ⟨ht, -, hr⟩ | ⟨r, g, ht, ⟨node, hnext, hr⟩ | ⟨hnext, -, hr⟩⟩
  · -- a document is left
    obtain ⟨w₂, written, hd, rfl⟩ := leave_ok hc₁.wellFormed hf hr
    have hn₂ := hd.tree.live n hn₁
    cases ho : f.owned with
    | none => exact .inl hn₂
    | some m =>
      obtain ⟨rfl, -⟩ := hs.head.2.2.2 m ho
      have hroot := (quiet_of_refreshed hc₁.wellFormed hd.tree).isRoot hs.head.1
      by_cases hu : Under w₂.space.tree m n
      · exact .inr ⟨_, _, .document rotated hf ht written ho hu⟩
      · exact .inl (((hd.tree.wellFormed.released hroot.live).live n).mpr ⟨hn₂, hu⟩)
  · -- a node is visited
    have taken : TakesUp o w g r { w₁ with frames := g :: more } := ⟨w₁, f, more, rotated, hf, ht, rfl⟩
    obtain ⟨v, w₂, hv, hr⟩ := Action.bind_eq_ok.mp hr
    obtain ⟨_, w₃, resumed, hr⟩ := Action.bind_eq_ok.mp hr
    replace hv := Action.locating_eq_ok.mp hv
    obtain ⟨g', hkept⟩ := hc₁.kept hi₁ hf ht hnext hv
    obtain ⟨hrest, -⟩ := hkept.resume resumed
    obtain ⟨hc₃, -, hfollows⟩ := hc₁.resumed hf ht hrot hnext hv resumed
    rcases hkept.lost n hn₁ with hn₂ | ⟨hname, c, hcopy, hu⟩
    · have hn₃ : w₃.space.tree.Live n := by rw [hrest]; exact hn₂
      cases hfollows with
      | done _ =>
        obtain ⟨-, rfl⟩ := Action.pure_eq_ok.mp hr
        exact .inl hn₃
      | yield _ _ _ =>
        obtain ⟨-, rfl⟩ := Action.pure_eq_ok.mp hr
        exact .inl hn₃
      | @enter e _ he =>
        obtain ⟨_, w₄, h₄, hr⟩ := Action.bind_eq_ok.mp hr
        obtain ⟨-, rfl⟩ := Action.pure_eq_ok.mp hr
        exact (live_of_enter hc₃.wellFormed he.isRoot h₄ hn₃).imp_right fun ⟨aside, hg⟩ =>
          ⟨_, _, .static taken hnext hv resumed hg⟩
    · obtain ⟨htag, l, hl⟩ := visit_loop hname hv
      exact .inr ⟨_, _, .copy taken hnext htag hl hcopy hu⟩
  · -- the loops around a run are asked
    obtain ⟨p, hended⟩ := hc₁.runEnded hf ht
    exact .inl ((hended.goesOn hs.head.2.2.1 (hc₁.orderly hi₁ hf ht).1 hr).2 n hn₁)

/-! ## Whole walks -/

/-- Before a walk begins, it holds the roots of its documents only. -/
theorem Holds.of_begin {s : Setup} (h : Holds (begin s) n) : n = 0 ∨ n ∈ documents (begin s) := by
  cases h with
  | scan frame _ => cases frame
  | first frame _ => cases frame
  | next frame _ _ => cases frame
  | anchor frame _ => cases frame
  | owned frame _ => cases frame
  | rotation due => cases due
  | document mem => exact .inr mem
  | ready ready =>
    cases ready
    exact .inl rfl
  | waiting _ opened _ =>
    rw [show (begin s).depth = 0 from rfl, List.take_zero] at opened
    cases opened

/-- What a walk holds has not been given up since the walk took hold of it.  What it holds between two rounds lives;
    and whatever the next round gives up, it gives up at a moment when the walk does not hold it and nothing is going
    to use it.  This is also so when a walk begins, and while a round fails.  No node is given up but on the occasions
    of `GivesUp`.  The levels of the sink that the walk has opened are all levels of the sink, if it had none at
    first. -/
theorem held_nodes_are_not_given_up (o : Options) (s : Setup) :
    ((∀ n, Holds (begin s) n → (begin s).space.tree.Live n)
      ∧ (∀ aside n, Import.GivesUpIn o (begin s).loader ⟨0, s.main.path⟩ ⟨(begin s).space.tree, (begin s).library⟩
          aside n → ¬ Holds (begin s) n ∧ n ∉ 0 :: aside)
      ∧ ∀ w n, start o ⟨0, s.main.path⟩ (begin s) = .ok () w → (begin s).space.tree.Live n →
          w.space.tree.Live n ∨ ∃ aside, Import.GivesUpIn o (begin s).loader ⟨0, s.main.path⟩
            ⟨(begin s).space.tree, (begin s).library⟩ aside n)
    ∧ ∀ w, Reached o s w →
      (∀ n, Holds w n → w.space.tree.Live n)
      ∧ (∀ w' aside n, GivesUp o w w' aside n → ¬ Holds w' n ∧ n ∉ aside)
      ∧ (∀ progress w' n, round o w = .ok progress w' → w.space.tree.Live n →
          w'.space.tree.Live n ∨ ∃ w₁ aside, GivesUp o w w₁ aside n)
      ∧ (s.Fresh → ∀ k, w.sink = some k → k.levels.length = w.depth) := by
  obtain ⟨hwf, hroot, hdocs⟩ := begun s
  refine ⟨⟨fun n hn => ?_, fun aside n hg => ?_, fun w n h hn => ?_⟩, fun w h => ?_⟩
  · rcases hn.of_begin with rfl | hn
    · exact hroot.live
    · exact (hdocs n hn).1.live
  · obtain ⟨hn, hne, haside⟩ := hg.unneeded hwf hroot.live hroot.parent?
      (Import.closed_beyond hwf hroot.parent?) fun hb => hb.2 .self
    refine ⟨fun hh => ?_, fun hm => (List.mem_cons.mp hm).elim hne haside⟩
    rcases hh.of_begin with rfl | hd
    · exact hne rfl
    · exact hn ⟨(hdocs n hd).1.live, fun hu => hne (hu.eq_of_root (hdocs n hd).1.parent?)⟩
  · rw [start, Action.modify_bind_eq_ok] at h
    exact live_of_enter (w := { begin s with phase := .running, main := (begin s).main.map fun t => t.read.2 })
      hwf hroot h hn
  · obtain ⟨roots, hc⟩ := h.coherent
    have hi := h.intact
    refine ⟨fun n hn => hn.live hc hi, fun _ _ _ hg => hc.not_holds hi hg,
      fun _ _ _ hr hn => hc.live_or_givesUp hi hr hn, fun hfresh k hk => ?_⟩
    rw [hc.leveled.depth]
    exact hc.leveled.sink hfresh k hk

/-- A loop with copies that is entered for a second time, because it stands in another loop: the copies are given up,
    when nobody holds them. -/
theorem held_nodes_are_not_given_up_in_loop :
    let inner : Element := .mk "repeat" [("max", "2"), ("unrolling", "true")] "" .none [.mk "nop" [] "" .none []]
    let layout : Element := .mk "layout" [] "" .none [.mk "repeat" [("max", "2")] "" .none [inner]]
    let s : Setup := ⟨⟨layout, none, none⟩, [], none, .memory, .zero, .stored [], .empty⟩
    ∃ o w w' aside, Reached o s w ∧ GivesUp o w w' aside 5 ∧ (∀ n, Holds w n → w.space.tree.Live n)
      ∧ ¬ Holds w' 5 ∧ 5 ∉ aside := by
  intro inner layout s
  let o : Options := .standard ⟨2000, 1, 1, 0, 0, 0, 0⟩
  have hrun : Action.succeeds (start o ⟨0, s.main.path⟩ (begin s)) (fun _ w => leadsTo o (fun w =>
      Action.succeeds (rotate o w) fun _ w => w.frames.head?.any fun f => (takeRun f).any fun x =>
        x.1.next == some 2 && w.space.tree.name 2 == "repeat" && w.space.tree.parent? 5 == some 4
          && (copies w.space.tree 2).contains 4
          && (Loop.declared w.space.tree 2 x.1.key (w.visible x.2)).toOption.isSome) 6 w) = true := by
    decide +kernel
  obtain ⟨w, hw, hrun⟩ := exists_reached hrun
  obtain ⟨_, w₁, rotated, hrun⟩ := Action.succeeds_iff.mp hrun
  obtain ⟨f, hf, hrun⟩ := (Option.any_eq_true _ _).mp hrun
  obtain ⟨⟨r, g⟩, ht, hrun⟩ := (Option.any_eq_true _ _).mp hrun
  obtain ⟨more, hf⟩ := List.head?_eq_some_iff.mp hf
  simp only [Bool.and_eq_true, beq_iff_eq, List.contains_iff_mem] at hrun
  obtain ⟨⟨⟨⟨hn, hname⟩, hparent⟩, hcopy⟩, hdeclared⟩ := hrun
  have taken : TakesUp o w g r { w₁ with frames := g :: more } := ⟨w₁, f, more, rotated, hf, ht, rfl⟩
  cases hl : Loop.declared w₁.space.tree 2 r.key (w₁.visible g) with
  | error e =>
    rw [hl] at hdeclared
    cases hdeclared
  | ok l =>
    have htag : tagOf w₁.space.tree 2 = .ok .loop := by
      unfold tagOf
      rw [hname]
      rfl
    have hgives : GivesUp o w _ [r.first, 2] 5 := .copy taken hn htag hl hcopy (.child hparent .self)
    obtain ⟨hlive, hkept, -⟩ := (held_nodes_are_not_given_up o s).2 w hw
    exact ⟨o, w, _, _, hw, hgives, hlive, hkept _ _ _ hgives⟩

end Stencil.Walk
