/-
  What a visit does to a document.

  A visit works in the innermost document.  It leaves the other documents alone (`Around`), and behind it
  the walk of the document goes on in its run, or it goes on elsewhere, if the visit has put positions on
  the scan (`Landed`).  There is one lemma for each kind of node.
-/
import Stencil.Proofs.Import.Rules
import Stencil.Proofs.Walk.Invariant

set_option autoImplicit false

namespace Stencil.Walk

open Stencil.Tree (Under Inner KeepsShape Closed Keeps Refreshed Added)
open Loop (Entered copies SameFeed)
open Loop.Turn (Continues Ends Advanced)

variable {t t' : Tree} {docs rs : List NodeId} {root p n q m : NodeId} {r : Run} {f g : Frame}
  {more : List Frame} {w w' : Walk} {o : Options} {key : String} {loops : List Loop}
  {scan : List Position} {u : Unit}

/-! ## Behind a visit -/

/-- Behind a visit in the run `r` below `p`. -/
inductive Landed (t : Tree) (root p : NodeId) (r : Run) (loops : List Loop) (scan : List Position) :
    Prop
  /-- The walk goes on in the run. -/
  | here (running : Running t root p r loops scan)
  /-- The walk goes on elsewhere. -/
  | away (moved : scan.length ≠ r.base) (paused : Paused t root loops scan)

/-- The walk goes on behind a node, in the same run. -/
theorem Running.resume (hwf : t.WellFormed) (h : Running t root p r loops scan)
    (hn : r.next = some n) :
    Running t root p { r with next := t.nextSibling? n } loops scan where
  standing := h.standing
  first := h.first
  base := h.base
  next := by
    intro c hc
    obtain ⟨hp, hf⟩ := h.next n hn
    refine ⟨hwf.parent?_of_nextSibling? hp hc, fun hm => hf ?_⟩
    rw [hwf.followingSiblings_nextSibling? hc]
    exact List.mem_cons_of_mem _ hm

/-- A visit in the document of `root` is about to begin. -/
structure Visiting (w : Walk) (f : Frame) (more : List Frame) (root : NodeId) (rs : List NodeId)
    (p : NodeId) (r : Run) (n : NodeId) : Prop where
  wellFormed : w.space.tree.WellFormed
  frames : w.frames = f :: more
  idle : f.run = none
  isRoot : IsRoot w.space.tree root
  fresh : root ∉ rs
  running : Running w.space.tree root p r f.loops f.scan
  next : r.next = some n

theorem Visiting.parent? (h : Visiting w f more root rs p r n) : w.space.tree.parent? n = some p :=
  (h.running.next n h.next).1

/-- A visit in the document of `root` is over. -/
structure Visited (w : Walk) (f : Frame) (more : List Frame) (root : NodeId) (rs : List NodeId)
    (p : NodeId) (r : Run) (w' : Walk) : Prop where
  around : Around rs w.space.tree w'.space.tree
  steady : Steady w w'
  frame : ∃ g, w'.frames = g :: more ∧ SameFrame f g ∧ g.run = none
    ∧ repeating g.loops = repeating f.loops ∧ Landed w'.space.tree root p r g.loops g.scan
  leveled : ∀ even k, Leveled even w k → Leveled even w' k

/-- A visit that changes no document that is walked. -/
theorem Visiting.visited_of_around (h : Visiting w f more root rs p r n)
    (ha : Around (root :: rs) w.space.tree w'.space.tree) (hd : Steady w w')
    (hf : w'.frames = w.frames) (hl : ∀ even k, Leveled even w k → Leveled even w' k) :
    Visited w f more root rs p r w' where
  around := ha.mono fun _ hr => List.mem_cons_of_mem _ hr
  steady := hd
  frame := ⟨f, hf.trans h.frames, .refl f, h.idle, rfl,
    .here (h.running.of_keepsShape h.wellFormed ha.wellFormed h.isRoot.live h.isRoot.parent?
      (ha.trunk root List.mem_cons_self h.isRoot))⟩
  leveled := hl

/-! ## Fields -/

theorem Visiting.item (h : Visiting w f more root rs p r n) (hname : w.space.tree.name n = "item")
    {w₁ : Walk} (h₁ : fillItem f key n w = .ok () w₁)
    (h₂ : onSink (fun files => Job.setData o files n) w₁ = .ok u w') :
    Visited w f more root rs p r w' ∧ w'.rotation = w.rotation := by
  obtain ⟨value, rfl⟩ := fillItem_ok h₁
  have hr₁ : Refreshed w.space.tree (putValue w.space.tree n value) :=
    refreshed_putValue h.wellFormed h.parent? (by rw [hname]; decide)
  rcases onSink_ok h₂ with ⟨-, rfl⟩ | ⟨s, j, hs, hj, rfl⟩
  · exact ⟨h.visited_of_around ((quiet_of_refreshed h.wellFormed hr₁).around h.wellFormed)
      ⟨rfl, rfl⟩ rfl fun _ k hk => ⟨hk.depth, hk.sink⟩, rfl⟩
  · have hput := Job.put_setData hr₁.wellFormed hj
    refine ⟨h.visited_of_around ((quiet_of_refreshed h.wellFormed (hr₁.trans hput.tree)).around h.wellFormed)
      ⟨rfl, rfl⟩ rfl fun _ k hk => ⟨hk.depth, fun he s' hs' => ?_⟩, rfl⟩
    cases hs'
    rw [← hk.sink he s hs]
    show j.sink.levels.length = s.levels.length
    have hl := hput.levels
    split at hl
    · obtain ⟨_, _, _, hsl, hjl⟩ := hl
      rw [hsl, hjl]
      rfl
    · rw [hl]

/-! ## Groups -/

theorem alike_of_content (hp : t'.parent? n = t.parent? n) (hc : t'.content n = t.content n) :
    Standing.Alike t t' n := by
  have hname := congrArg Node.name hc
  have hattrs := congrArg Node.attrs hc
  have hseq := congrArg (fun x => x.computed.seq) hc
  exact ⟨hp, hname, hattrs, hseq⟩

/-- Where parents and contents are kept, the walk stands as before. -/
theorem Standing.of_live (hwf : t.WellFormed) (hl : t.Live root)
    (hp : ∀ n, t.Live n → t'.parent? n = t.parent? n)
    (hc : ∀ n, t.Live n → Under t n p → t'.content n = t.content n)
    (h : Standing t root p key loops scan) : Standing t' root p key loops scan := by
  have hlp : t.Live p := hwf.live_of_under hl h.inner.under
  refine h.transfer hwf (fun m hm => ?_) fun m q _ _ hq => ?_
  · have hlm := hwf.live_of_under' hlp hm
    exact alike_of_content (hp m hlm) (hc m hlm hm)
  · exact (hp m (hwf.live_of_parent hq).1).trans hq

theorem around_of_added {cs : List NodeId} {new : Node} {id : NodeId} (hwf : t.WellFormed)
    (hfresh : root ∉ rs) (hr : t.parent? root = none) (hi : Inner t root p)
    (h : Added t p cs new id t') : Around rs t t' :=
  .of_keeps hwf h.wellFormed hfresh hr
    (fun r hir => ⟨h.live r hir.live, (h.parent? r hir.live).trans hir.parent?⟩)
    fun _ hc hP => h.keeps hc fun hp => hP (hc.of_under hi.under hp)

theorem Visiting.items (h : Visiting w f more root rs p r n)
    (hname : w.space.tree.name n = "items")
    (hd : descend w.space.tree f.scan r.key n = .ok (t', scan))
    (hw : w' = { w with
      space := { w.space with tree := t' }
      frames := { f with scan } :: more }) :
    Visited w f more root rs p r w' := by
  have hstand := h.running.standing
  have hsteady : Steady w w' := by rw [hw]; exact ⟨rfl, rfl⟩
  have hlev : ∀ even k, Leveled even w k → Leveled even w' k := by
    intro even k hk
    rw [hw]
    exact ⟨hk.depth, hk.sink⟩
  have htree : w'.space.tree = t' := by rw [hw]
  have hframes : w'.frames = { f with scan } :: more := by rw [hw]
  rcases descend_ok h.wellFormed h.parent? hd with ⟨-, rfl, rfl⟩ | ⟨first, next, hf, rfl, hnext⟩
  · refine h.visited_of_around ?_ hsteady (hframes.trans h.frames.symm) hlev
    rw [htree]
    exact (Quiet.refl h.wellFormed).around h.wellFormed
  · have hpf : w.space.tree.parent? first = some n :=
      h.wellFormed.mem_children.mp (List.mem_of_head? hf)
    -- in the new tree the walk stands in the group, and behind it there is a node
    have hnew : Around rs w.space.tree t' ∧ Standing t' root p r.key f.loops f.scan
        ∧ t'.parent? next = some p ∧ t'.parent? n = some p ∧ t'.parent? first = some n
        ∧ Standing.Alike w.space.tree t' n := by
      rcases hnext with ⟨hn, rfl⟩ | ⟨-, hm⟩
      · exact ⟨(Quiet.refl h.wellFormed).around h.wellFormed, hstand,
          h.wellFormed.parent?_of_nextSibling? h.parent? hn, h.parent?, hpf, rfl, rfl, rfl, rfl⟩
      · have hln := (h.wellFormed.live_of_parent h.parent?).1
        refine ⟨around_of_added h.wellFormed h.fresh h.isRoot.parent? hstand.inner hm, ?_, ?_, ?_, ?_, ?_⟩
        · exact hstand.of_live h.wellFormed h.isRoot.live hm.parent? fun m hl _ => hm.content m hl
        · unfold Tree.parent?
          rw [hm.self]
        · rw [hm.parent? n hln, h.parent?]
        · rw [hm.parent? first (h.wellFormed.live_of_parent hpf).1, hpf]
        · exact alike_of_content (hm.parent? n hln) (hm.content n hln)
    obtain ⟨ha, hs, hpn, hpg, hpf', halike⟩ := hnew
    refine ⟨htree ▸ ha, hsteady, ⟨_, hframes, ⟨rfl, rfl, rfl⟩, h.idle, rfl, .away ?_ ?_⟩, hlev⟩
    · rw [h.running.base]
      show f.scan.length + 1 + 1 ≠ f.scan.length
      omega
    · rw [htree]
      refine .at (q := n) ?_ hpf'
      exact .group hs hpg (halike.name.trans hname) (halike.keyPath r.key).symm hpn

/-! ## Loops -/

theorem turn_ok {l l' : Loop} {next : Bool} (h : turn f l w = .ok (next, l') w') :
    ∃ s, Loop.Turn.next ⟨l, w.space.tree, w.feedOf f l, f.scan⟩ = .ok next s
      ∧ l' = s.loop ∧ w' = w.afterTurn f s := by
  unfold turn at h
  cases hs : Loop.Turn.next ⟨l, w.space.tree, w.feedOf f l, f.scan⟩ with
  | error e s => simp only [hs] at h; cases h
  | ok b s =>
    simp only [hs] at h
    cases h
    exact ⟨s, rfl, rfl, rfl⟩

/-- The walk behind a step of a loop that led to `s`. -/
structure Turned (w : Walk) (g : Frame) (more : List Frame) (s : Loop.Turn) (w' : Walk) : Prop where
  tree : w'.space.tree = s.tree
  frames : w'.frames = { g with scan := s.scan } :: more
  steady : Steady w w'
  sink : w'.sink = w.sink
  depth : w'.depth = w.depth
  rotation : w'.rotation = w.rotation

theorem documents_setTable (w : Walk) (source : Source) (table : Option Table) :
    documents (w.setTable source table) = documents w := by
  cases source with
  | main => rfl
  | secondary i =>
    cases table with
    | none => rfl
    | some t => exact Loop.roots_setTable w.secondary i t

theorem setTable_rest (w : Walk) (source : Source) (table : Option Table) :
    w.setTable source table = { w with
      main := (w.setTable source table).main, secondary := (w.setTable source table).secondary } := by
  cases source with
  | main => rfl
  | secondary i => cases table <;> rfl

theorem turned_afterTurn {s : Loop.Turn} {l : Loop} (hf : w.frames = g :: more)
    (hs : SameFeed (w.feedOf f l) s.feed) : Turned w g more s (w.afterTurn f s) := by
  unfold afterTurn
  cases hfeed : s.feed with
  | documents c =>
    rw [hfeed] at hs
    by_cases hsees : f.seesSecondary = true
    · have hc : c.entries.map CombinedEntry.root = documents w := by
        unfold feedOf visible at hs
        rw [if_pos hsees] at hs
        split at hs
        · exact hs
        · exact hs.elim
      simp only [hf, hsees, if_true]
      exact ⟨rfl, rfl, ⟨hc, rfl⟩, rfl, rfl, rfl⟩
    · simp only [hf, hsees]
      exact ⟨rfl, rfl, ⟨rfl, rfl⟩, rfl, rfl, rfl⟩
  | records table =>
    dsimp only
    rw [setTable_rest]
    simp only [hf]
    exact ⟨rfl, rfl, ⟨documents_setTable _ f.source table, rfl⟩, rfl, rfl, rfl⟩

theorem anchor_of_entered (he : Entered t n p t') :
    t'.name n = t.name n ∧ (t'.node n).attrs = (t.node n).attrs ∧ (t'.computed n).seq = some 0 := by
  unfold Tree.name Tree.computed
  rw [he.self]
  exact ⟨rfl, rfl, rfl⟩

/-- Copies of a loop are no roots, and nothing on the way to the loop stands below them. -/
theorem not_under_copy {c : NodeId} (hwf : t.WellFormed) (hp : t.parent? n = some p)
    (hc : c ∈ copies t n) (hm : Under t m p) : ¬ Under t c m := fun hu =>
  hwf.not_under_parent (Loop.parent?_of_mem_copies hwf hp hc).1 (hu.trans hm)

theorem standing_of_entered (hwf : t.WellFormed) (hl : t.Live root) (hp : t.parent? n = some p)
    (he : Entered t n p t') (h : Standing t root p key loops scan) :
    Standing t' root p key loops scan := by
  have hlp : t.Live p := hwf.live_of_under hl h.inner.under
  refine h.transfer hwf (fun m hm => ?_) fun m q hq hqp hmq => ?_
  · have hlm : t'.Live m := (he.live m).mpr
      ⟨hwf.live_of_under' hlp hm, fun c hc => not_under_copy hwf hp hc hm⟩
    refine alike_of_content (he.parent? m hlm) (he.content m hlm ?_)
    rintro rfl
    exact hwf.not_under_parent hp hm
  · have hlm : t'.Live m := by
      refine (he.live m).mpr ⟨(hwf.live_of_parent hmq).1, fun c hc hu => ?_⟩
      -- a node below a copy is the copy itself, or its parent is below the copy, too
      by_cases hmc : m = c
      · subst hmc
        rw [(Loop.parent?_of_mem_copies hwf hp hc).1] at hmq
        exact hqp (Option.some.inj hmq).symm
      · exact not_under_copy hwf hp hc hq (hu.of_parent hmq hmc)
    exact (he.parent? m hlm).trans hmq

theorem around_of_entered (hwf : t.WellFormed) (hfresh : root ∉ rs) (hr : t.parent? root = none)
    (hi : Inner t root p) (hp : t.parent? n = some p) (he : Entered t n p t') : Around rs t t' := by
  refine .of_keeps hwf he.wellFormed hfresh hr (fun r hir => ?_)
    fun P hc hP => he.keeps hwf hp hc fun hpp => hP (hc.of_under hi.under hpp)
  have hl : t'.Live r := by
    refine (he.live r).mpr ⟨hir.live, fun c hc hu => ?_⟩
    have hpc := (Loop.parent?_of_mem_copies hwf hp hc).1
    rw [← hu.eq_of_root hir.parent?, hir.parent?] at hpc
    cases hpc
  exact ⟨hl, (he.parent? r hl).trans hir.parent?⟩

/-- The loop that a run is in has not been entered again; so the run goes on. -/
theorem running_of_entered (hwf : t.WellFormed) (hl : t.Live root) (hp : t.parent? n = some p)
    (he : Entered t n p t') (hn : r.next = some n) (h : Running t root p r loops scan) :
    Running t' root p r loops scan where
  standing := standing_of_entered hwf hl hp he h.standing
  first := by
    have hlf : t'.Live r.first := by
      refine (he.live r.first).mpr ⟨(hwf.live_of_parent h.first).1, fun c hc hu => ?_⟩
      obtain ⟨hpc, -⟩ := Loop.parent?_of_mem_copies hwf hp hc
      have : c = r.first := hwf.siblings_disjoint hpc h.first hu .self
      exact (h.next n hn).2 (this ▸ (Loop.mem_copies hc).1)
    rw [he.parent? r.first hlf, h.first]
  base := h.base
  next := by
    intro n' hn'
    rw [hn] at hn'
    cases hn'
    have hln : t'.Live n := (he.live n).mpr ⟨(hwf.live_of_parent hp).1, fun c hc hu => by
      obtain ⟨hpc, hne⟩ := Loop.parent?_of_mem_copies hwf hp hc
      exact hne (hwf.siblings_disjoint hpc hp hu .self)⟩
    refine ⟨(he.parent? n hln).trans hp, ?_⟩
    obtain ⟨before, after, hs⟩ := hwf.exists_split hp
    have hkeep : (!(copies t n).contains n) = true := by
      rw [Bool.not_eq_true', ← Bool.not_eq_true, List.contains_iff_mem]
      exact fun hc => (Loop.parent?_of_mem_copies hwf hp hc).2 rfl
    have hs' := he.siblings
    rw [hs, List.filter_append, List.filter_cons_of_pos (p := fun c => !(copies t n).contains c) hkeep]
      at hs'
    rw [he.wellFormed.followingSiblings_of_split hs']
    intro hm
    refine (h.next n hn).2 ?_
    rw [hwf.followingSiblings_of_split hs]
    exact (List.mem_filter.mp hm).1

theorem standing_of_advanced {a : NodeId} (hwf : t.WellFormed) (hl : t.Live root)
    (ha : t.parent? m = some p) (h : Advanced t p m a t')
    (hs : Standing t root p key loops scan) : Standing t' root p key loops scan := by
  refine hs.of_live hwf hl h.parent? fun n hn hu => h.content n hn ?_
  rintro rfl
  rcases h.same with rfl | hnot
  · exact hwf.not_under_parent ha hu
  · exact hnot hn

theorem around_of_advanced {a : NodeId} (hwf : t.WellFormed) (hfresh : root ∉ rs)
    (hr : t.parent? root = none) (hi : Inner t root p) (ha : t.parent? m = some p)
    (h : Advanced t p m a t') : Around rs t t' :=
  .of_keeps hwf h.wellFormed hfresh hr
    (fun r hir => ⟨h.live r hir.live, (h.parent? r hir.live).trans hir.parent?⟩)
    fun _ hc hP => h.keeps ha hc fun hp => hP (hc.of_under hi.under hp)

theorem startLoop_ok (h : startLoop f key n w = .ok u w') :
    ∃ l t₁ next s, Loop.enter n key (w.visible f) w.space.tree = .ok l t₁
      ∧ Loop.Turn.next
          ⟨l, t₁, feedOf { w with space := { w.space with tree := t₁ } } f l, f.scan⟩ = .ok next s
      ∧ w' = (fun w₁ : Walk => if next then
          match w₁.frames with
          | [] => w₁
          | top :: more => { w₁ with frames := { top with loops := s.loop :: top.loops } :: more }
        else w₁) (afterTurn { w with space := { w.space with tree := t₁ } } f s) := by
  rw [startLoop, Action.get_bind_eq_ok] at h
  obtain ⟨l, w₁, h₁, h⟩ := Action.bind_eq_ok.mp h
  obtain ⟨t₁, ht₁, rfl⟩ := onTree_ok h₁
  obtain ⟨⟨next, l'⟩, w₂, h₂, h⟩ := Action.bind_eq_ok.mp h
  obtain ⟨s, hs, rfl, rfl⟩ := turn_ok h₂
  refine ⟨l, t₁, next, s, ht₁, hs, ?_⟩
  cases next with
  | true => exact modifyFrame_eq_ok.mp h
  | false => exact (Action.pure_eq_ok.mp h).2.symm

theorem Visiting.loop (h : Visiting w f more root rs p r n)
    (hname : w.space.tree.name n = "repeat") (hl : startLoop f r.key n w = .ok u w') :
    Visited w f more root rs p r w' ∧ w'.rotation = w.rotation := by
  obtain ⟨l, t₁, next, s, henter, hnext, rfl⟩ := startLoop_ok hl
  obtain ⟨hdecl, rfl⟩ := Loop.enter_ok henter
  obtain ⟨hcount, hkey, hbody, hanchor⟩ := Loop.declared_ok hdecl
  have hwf := h.wellFormed
  have hpn := h.parent?
  have he := Loop.entered hwf hpn
  generalize (Loop.dropCopies w.space.tree n).setSeq n 0 = t₁ at he hnext
  have hi := h.running.standing.inner
  have hfirst : Around rs w.space.tree t₁ :=
    around_of_entered hwf h.fresh h.isRoot.parent? hi hpn he
  have hstand := standing_of_entered hwf h.isRoot.live hpn he h.running.standing
  have hroot := hfirst.isRoot root h.isRoot
  have hln : t₁.Live n := (he.live n).mpr ⟨(hwf.live_of_parent hpn).1, fun c hc hu => by
    obtain ⟨hpc, hne⟩ := Loop.parent?_of_mem_copies hwf hpn hc
    exact hne (hwf.siblings_disjoint hpc hpn hu .self)⟩
  have hpn₁ : t₁.parent? l.anchor = some p := by
    rw [hanchor, he.parent? n hln, hpn]
  have hstep := Loop.Turn.next_ok (p := p) he.wellFormed hpn₁ hnext
  have hfeed : SameFeed (feedOf { w with space := { w.space with tree := t₁ } } f l) s.feed := by
    cases next with
    | true => exact hstep.feed
    | false => exact hstep.feed
  have hframes : ({ w with space := { w.space with tree := t₁ } } : Walk).frames = f :: more := h.frames
  have hturn := turned_afterTurn hframes hfeed
  generalize afterTurn { w with space := { w.space with tree := t₁ } } f s = w₂ at hturn
  have hlev : ∀ even k, Leveled even w k → Leveled even w₂ k := fun _ k hk =>
    hk.of_eq hturn.depth hturn.sink
  cases next with
  | true =>
    have hc : Continues _ p s := hstep
    obtain ⟨first, hscan, hpf⟩ := hc.scan
    have hadv := hc.advanced
    simp only [if_true, hturn.frames]
    refine ⟨⟨hfirst.trans ?_, ⟨hturn.steady.docs, hturn.steady.phase⟩, ⟨_, rfl, ⟨rfl, rfl, rfl⟩, h.idle, ?_, .away ?_ ?_⟩,
      fun even k hk => ?_⟩,
      hturn.rotation⟩
    · show Around rs t₁ w₂.space.tree
      rw [hturn.tree]
      exact around_of_advanced he.wellFormed h.fresh hroot.parent? hstand.inner hpn₁ hadv
    · show repeating (s.loop :: f.loops) = repeating f.loops
      unfold repeating
      rw [List.filter_cons_of_neg]
      rw [hc.count, show (Loop.Turn.mk l t₁ _ f.scan).loop.count = 0 from hcount]
      decide
    · show s.scan.length ≠ r.base
      rw [hscan, h.running.base]
      show f.scan.length + 1 ≠ f.scan.length
      omega
    · show Paused w₂.space.tree root (s.loop :: f.loops) s.scan
      rw [hturn.tree, hscan]
      have hs := standing_of_advanced he.wellFormed hroot.live hpn₁ hadv hstand
      refine .at (q := s.loop.anchor) ?_ hpf
      obtain ⟨hname₁, hattrs₁, hseq₁⟩ := anchor_of_entered he
      refine .loop hs hadv.parent ?_ ?_ rfl (hc.key.trans hkey) hc.bodyKey ?_ ?_
      · rw [hadv.name]
        show t₁.name l.anchor = "repeat"
        rw [hanchor, hname₁, hname]
      · have hattrs : (s.tree.node s.loop.anchor).attrs = (w.space.tree.node n).attrs := by
          rw [hadv.attrs]
          show (t₁.node l.anchor).attrs = _
          rw [hanchor, hattrs₁]
        show l.bodyKey = _
        rw [hbody]
        unfold Tree.keyPath Tree.attr?
        rw [hattrs]
      · rw [hc.seq, hc.count, if_pos hcount]
        show (t₁.computed l.anchor).seq = some (l.count + 1 - 1)
        rw [hanchor, hseq₁, hcount]
      · rw [hc.count]
        exact Nat.le_add_left 1 _
    · exact (hlev even k hk).of_eq rfl rfl
  | false =>
    have hends : Ends _ s := hstep
    have htree : w₂.space.tree = t₁ := hturn.tree.trans hends.tree
    refine ⟨⟨htree ▸ hfirst, ⟨hturn.steady.docs, hturn.steady.phase⟩,
      ⟨_, hturn.frames, ⟨rfl, rfl, rfl⟩, h.idle, rfl, ?_⟩, hlev⟩,
      hturn.rotation⟩
    show Landed w₂.space.tree root p r f.loops s.scan
    rw [htree, hends.scan]
    unfold Loop.Turn.behind
    dsimp only
    cases hsib : t₁.nextSibling? l.anchor with
    | none => exact .here (running_of_entered hwf h.isRoot.live hpn he h.next h.running)
    | some next =>
      refine .away ?_ (.at (q := p) ?_ (he.wellFormed.parent?_of_nextSibling? hpn₁ hsib))
      · rw [h.running.base]
        show f.scan.length + 1 ≠ f.scan.length
        omega
      · show Standing t₁ root p l.key f.loops f.scan
        rw [hkey]
        exact hstand

/-! ## Outputs -/

theorem Visiting.atWriter (h : Visiting w f more root rs p r n)
    (hname : w.space.tree.name n = "writer") : AtWriter w.space.tree root n :=
  ⟨h.isRoot, hname, p, h.parent?, h.running.standing.inner⟩

/-- What handing out the open sink does. -/
structure Taken (w : Walk) (s s' : Sink) (w' : Walk) : Prop where
  rest : w' = { w with
    space := w'.space, files := w'.files, outputs := w'.outputs, sink := none }
  tree : Refreshed w.space.tree w'.space.tree
  same : SameSink s s'
  levels : s'.levels = []
  flushed : s'.flush = s'

theorem flush_flush (s : Sink) : s.flush.flush = s.flush := by
  obtain ⟨name, stream, levels, target⟩ := s
  cases target <;> rfl

theorem taken_takeSink {s s' : Sink} (hwf : w.space.tree.WellFormed)
    (h : takeSink o s w = .ok s' w') : Taken w s s' w' := by
  unfold takeSink at h
  cases hj : Job.closeAll o w.files ⟨w.space, s⟩ with
  | error e j => simp only [hj] at h; cases h
  | ok v j =>
    simp only [hj] at h
    cases h
    have he := Job.emptied_closeAll hwf hj
    have hspace : (keep j.sink { w with sink := none, space := j.space }).space = j.space := by
      rw [keep_rest]
    refine ⟨?_, ?_, he.same.trans (.flush j.sink), ?_, flush_flush j.sink⟩
    · rw [keep_rest]
    · show Refreshed w.space.tree (keep j.sink { w with sink := none, space := j.space }).space.tree
      rw [hspace]
      exact he.tree
    · rw [levels_flush, he.levels]

theorem Visiting.writer {v : Visit} (h : Visiting w f more root rs p r n)
    (hname : w.space.tree.name n = "writer") (hv : visitWriter o f n w = .ok v w') :
    Visited w f more root rs p r w'
      ∧ (v = .done ∧ w'.rotation = w.rotation
        ∨ ∃ s, v = .yield s ∧ w'.rotation = some n ∧ AtWriter w'.space.tree root n
          ∧ w'.sink = none) := by
  have hw := h.atWriter hname
  rw [visitWriter, Action.get_bind_eq_ok] at hv
  cases hs : w.sink with
  | none =>
    simp only [hs] at hv
    obtain ⟨_, w₁, h₁, hv⟩ := Action.bind_eq_ok.mp hv
    obtain ⟨rfl, rfl⟩ := Action.pure_eq_ok.mp hv
    have ho := sinkOpened h.wellFormed hw h₁
    have hd : Steady w w₁ := by rw [ho.rest]; exact ⟨rfl, rfl⟩
    refine ⟨h.visited_of_around (ho.step.quiet.around h.wellFormed) hd ?_ fun _ k hk => ho.leveled hk, .inl ⟨rfl, ?_⟩⟩
    · rw [ho.rest]
    · rw [ho.rest]
  | some s =>
    simp only [hs] at hv
    obtain ⟨s', w₁, h₁, hv⟩ := Action.bind_eq_ok.mp hv
    have ht := taken_takeSink h.wellFormed h₁
    rw [Action.modify_bind_eq_ok] at hv
    obtain ⟨rfl, rfl⟩ := Action.pure_eq_ok.mp hv
    have hq := quiet_of_refreshed h.wellFormed ht.tree
    have hd : Steady w w₁ := by rw [ht.rest]; exact ⟨rfl, rfl⟩
    have hsink : w₁.sink = none := by rw [ht.rest]
    refine ⟨h.visited_of_around (hq.around h.wellFormed) ⟨hd.docs, hd.phase⟩ ?_ fun _ k hk => ⟨?_, fun _ s₂ hs₂ => ?_⟩,
      .inr ⟨s', rfl, rfl, ?_, hsink⟩⟩
    · show w₁.frames = w.frames
      rw [ht.rest]
    · show w₁.depth = k
      rw [ht.rest]
      exact hk.depth
    · rw [show w₁.sink = some s₂ from hs₂] at hsink
      cases hsink
    · exact (bodyStep_of_refreshed h.wellFormed hw ht.tree).writer

/-! ## Imports -/

/-- The walk may go into a document. -/
structure Enterable (w : Walk) (roots : List NodeId) (e : Entry) : Prop where
  isRoot : IsRoot w.space.tree e.document.root
  fresh : e.document.root ∉ roots
  sees : e.seesSecondary = false
  owned : e.owned = true → e.document.root ∉ documents w
  found : e.owned = false → ∃ i, e.source = .secondary i ∧ (documents w)[i]? = some e.document.root

theorem around_of_edited {d : NodeId} (hwf : t.WellFormed) (hd : IsRoot t d) (hfresh : d ∉ rs)
    (h : ∀ P, Closed t P → ¬ P d → Import.Edited P t t') : Around rs t t' := by
  have he := h _ Tree.closed_none (fun hn => hn)
  exact .of_keeps hwf he.wellFormed hfresh hd.parent?
    (fun r hr => ⟨he.live r hr.live, he.root r hr.parent?⟩) fun P hc hP => (h P hc hP).keeps

theorem around_of_grafted {e : Element} {d : NodeId} (hwf : t.WellFormed)
    (hrs : ∀ r ∈ rs, IsRoot t r) (h : Tree.Grafted t e d t') : Around rs t t' :=
  .of_keeps hwf h.wellFormed (fun hm => h.fresh (hrs d hm).live) (hwf.bare h.fresh).2
    (fun r hr => ⟨h.live r hr.live, by
      rw [Tree.parent?, h.node r hr.live]
      exact hr.parent?⟩)
    fun _ hc _ => h.keeps hc

/-- The current document is one of the secondary documents, if these can be seen. -/
theorem current_document {c : CombinedEntry} {i : Nat} (hi : (w.visible f).currentIndex = some i)
    (h : (w.visible f).current? = some c) :
    f.seesSecondary = true ∧ (documents w)[i]? = some c.root := by
  unfold Combined.current? at h
  rw [hi] at h
  unfold visible at h
  by_cases hs : f.seesSecondary = true
  · rw [if_pos hs] at h
    refine ⟨hs, ?_⟩
    unfold documents
    rw [List.getElem?_map, show w.secondary.entries[i]? = some c from h]
    rfl
  · rw [if_neg hs] at h
    simp [Combined.ofList] at h

/-- A visit to an import leaves the documents that are walked alone. -/
theorem Visiting.around_document {v : Visit} (h : Visiting w f more root rs p r n)
    (hrs : ∀ r ∈ rs, IsRoot w.space.tree r) (hdocs : ∀ d ∈ documents w, IsRoot w.space.tree d)
    (hsees : f.seesSecondary = true → rs = [] ∧ root ∉ documents w)
    (hv : visitImport o f n w = .ok v w') :
    Around (root :: rs) w.space.tree w'.space.tree
      ∧ w' = { w with space := w'.space, library := w'.library }
      ∧ (v = .done ∨ ∃ e, v = .enter e ∧ Enterable w' (root :: rs) e
        ∧ if e.owned then w.space.tree.attr? n "type" = some "dynamic" else f.seesSecondary = true) := by
  have hwf := h.wellFormed
  have hroots : ∀ r ∈ root :: rs, IsRoot w.space.tree r := by
    intro r hr
    rcases List.mem_cons.mp hr with rfl | hr
    · exact h.isRoot
    · exact hrs r hr
  rw [visitImport, Action.get_bind_eq_ok] at hv
  generalize hkind : w.space.tree.attr? n "type" = kind at hv ⊢
  split at hv
  · -- the current secondary document is edited and entered
    cases hi : (w.visible f).currentIndex with
    | none =>
      simp only [hi] at hv
      exact (Action.failAt_eq_ok.mp hv).elim
    | some i =>
      cases hc : (w.visible f).current? with
      | none =>
        simp only [hi, hc] at hv
        exact (Action.failAt_eq_ok.mp hv).elim
      | some c =>
        simp only [hi, hc] at hv
        obtain ⟨_, w₁, h₁, hv⟩ := Action.bind_eq_ok.mp hv
        obtain ⟨rfl, rfl⟩ := Action.pure_eq_ok.mp hv
        obtain ⟨d, hd, rfl⟩ := onDesk_ok h₁
        obtain ⟨hsee, hci⟩ := current_document hi hc
        have hcd : c.root ∈ documents w := List.mem_of_getElem? hci
        obtain ⟨rfl, hroot⟩ := hsees hsee
        have hcr := hdocs c.root hcd
        have hfresh : c.root ∉ [root] := by
          rw [List.mem_singleton]
          rintro rfl
          exact hroot hcd
        have ha : Around [root] w.space.tree d.tree := around_of_edited hwf hcr hfresh
          fun P hP hPc => Import.edited_edit (d := ⟨w.space.tree, w.library⟩) hwf hP hcr.parent? hPc hd
        exact ⟨ha, rfl, .inr ⟨_, rfl, ⟨ha.isRoot _ hcr, hfresh, rfl, fun ho => (nomatch ho),
          fun _ => ⟨i, rfl, hci⟩⟩, hsee⟩⟩
  · -- a new document is put into the tree, edited and entered
    obtain ⟨d, w₁, h₁, hv⟩ := Action.bind_eq_ok.mp hv
    obtain ⟨_, w₂, h₂, hv⟩ := Action.bind_eq_ok.mp hv
    obtain ⟨rfl, rfl⟩ := Action.pure_eq_ok.mp hv
    obtain ⟨d₁, hd₁, rfl⟩ := onDesk_ok h₁
    obtain ⟨d₂, hd₂, rfl⟩ := onDesk_ok h₂
    obtain ⟨e, hg⟩ := Import.grafted_place (d := ⟨w.space.tree, w.library⟩) hwf hd₁
    have ha₁ : Around (root :: rs) w.space.tree d₁.tree := around_of_grafted hwf hroots hg
    have hnew : IsRoot d₁.tree d.root := ⟨hg.live_root, hg.parent?_root⟩
    have hfresh : d.root ∉ root :: rs := fun hm => hg.fresh (hroots _ hm).live
    have ha₂ : Around (root :: rs) d₁.tree d₂.tree := around_of_edited hg.wellFormed hnew hfresh
      fun P hP hPc => Import.edited_edit (d := ⟨d₁.tree, d₁.library⟩) hg.wellFormed hP hnew.parent? hPc hd₂
    exact ⟨ha₁.trans ha₂, rfl, .inr ⟨_, rfl, ⟨ha₂.isRoot _ hnew, hfresh, rfl,
      fun _ hm => hg.fresh (hdocs _ hm).live, fun ho => (nomatch ho)⟩, rfl⟩⟩
  · obtain ⟨rfl, rfl⟩ := Action.pure_eq_ok.mp hv
    exact ⟨(Quiet.refl hwf).around hwf, rfl, .inl rfl⟩
  · exact (Action.failAt_eq_ok.mp hv).elim

theorem Visiting.document {v : Visit} (h : Visiting w f more root rs p r n)
    (hrs : ∀ r ∈ rs, IsRoot w.space.tree r) (hdocs : ∀ d ∈ documents w, IsRoot w.space.tree d)
    (hsees : f.seesSecondary = true → rs = [] ∧ root ∉ documents w)
    (hv : visitImport o f n w = .ok v w') :
    Visited w f more root rs p r w' ∧ w'.rotation = w.rotation
      ∧ (v = .done ∨ ∃ e, v = .enter e ∧ Enterable w' (root :: rs) e) := by
  obtain ⟨ha, hrest, hnext⟩ := h.around_document hrs hdocs hsees hv
  refine ⟨h.visited_of_around ha ?_ ?_ fun _ k hk => ?_, ?_, ?_⟩
  · rw [hrest]
    exact ⟨rfl, rfl⟩
  · rw [hrest]
  · rw [hrest]
    exact ⟨hk.depth, hk.sink⟩
  · rw [hrest]
  · rcases hnext with hd | ⟨e, he, hent, -⟩
    · exact .inl hd
    · exact .inr ⟨e, he, hent⟩

/-! ## Visits -/

/-- What a visit to `n`, in the document of the first root, asks for. -/
inductive Follows (w : Walk) (root : NodeId) (rs : List NodeId) (n : NodeId) : Visit → Prop
  | done (rotation : w.rotation = none) : Follows w root rs n .done
  | yield {s : Sink} (rotation : w.rotation = some n) (writer : AtWriter w.space.tree root n)
      (closed : w.sink = none) : Follows w root rs n (.yield s)
  | enter {e : Entry} (rotation : w.rotation = none) (enterable : Enterable w (root :: rs) e) :
      Follows w root rs n (.enter e)

theorem Visiting.visit {v : Visit} (h : Visiting w f more root rs p r n)
    (hrs : ∀ r ∈ rs, IsRoot w.space.tree r) (hdocs : ∀ d ∈ documents w, IsRoot w.space.tree d)
    (hsees : f.seesSecondary = true → rs = [] ∧ root ∉ documents w) (hrot : w.rotation = none)
    (hv : visit o f r.key n w = .ok v w') :
    Visited w f more root rs p r w' ∧ Follows w' root rs n v := by
  rw [Walk.visit, Action.get_bind_eq_ok] at hv
  obtain ⟨tag, htag, hv⟩ := Action.ofExcept_bind_eq_ok.mp hv
  have hname := tagOf_ok htag
  cases tag with
  | item =>
    obtain ⟨_, w₁, h₁, hv⟩ := Action.bind_eq_ok.mp hv
    obtain ⟨_, w₂, h₂, hv⟩ := Action.bind_eq_ok.mp hv
    obtain ⟨rfl, rfl⟩ := Action.pure_eq_ok.mp hv
    obtain ⟨hvis, hr⟩ := h.item hname h₁ h₂
    exact ⟨hvis, .done (hr.trans hrot)⟩
  | items =>
    obtain ⟨⟨t, scan⟩, hd, hv⟩ := Action.ofExcept_bind_eq_ok.mp hv
    obtain ⟨_, w₁, h₁, hv⟩ := Action.bind_eq_ok.mp hv
    obtain ⟨_, w₂, h₂, hv⟩ := Action.bind_eq_ok.mp hv
    obtain ⟨rfl, rfl⟩ := Action.pure_eq_ok.mp hv
    rw [modifyTree_eq_ok.mp h₁] at h₂
    have hw := modifyFrame_eq_ok.mp h₂
    simp only [h.frames] at hw
    refine ⟨h.items hname hd hw, .done ?_⟩
    rw [hw]
    exact hrot
  | loop =>
    obtain ⟨_, w₁, h₁, hv⟩ := Action.bind_eq_ok.mp hv
    obtain ⟨rfl, rfl⟩ := Action.pure_eq_ok.mp hv
    obtain ⟨hvis, hr⟩ := h.loop hname h₁
    exact ⟨hvis, .done (hr.trans hrot)⟩
  | document =>
    obtain ⟨hvis, hr, rfl | ⟨e, rfl, he⟩⟩ := h.document hrs hdocs hsees hv
    · exact ⟨hvis, .done (hr.trans hrot)⟩
    · exact ⟨hvis, .enter (hr.trans hrot) he⟩
  | writer =>
    obtain ⟨hvis, ⟨rfl, hr⟩ | ⟨s, rfl, hr, hw, hs⟩⟩ := h.writer hname hv
    · exact ⟨hvis, .done (hr.trans hrot)⟩
    · exact ⟨hvis, .yield hr hw hs⟩
  | nop =>
    obtain ⟨rfl, rfl⟩ := Action.pure_eq_ok.mp hv
    exact ⟨h.visited_of_around ((Quiet.refl h.wellFormed).around h.wellFormed) ⟨rfl, rfl⟩ rfl fun _ k hk => hk,
      .done hrot⟩

end Stencil.Walk
