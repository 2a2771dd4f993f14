/-
  A walk follows an agenda.

  The walk of a template without other documents stands in a run of siblings below a node `p`.  It follows an agenda
  (`Tracks`) if the groups and loops around `p` stand for what is around on the agenda, the nodes that come next in
  the run stand for the elements that come next, and both have the same records.

  A visit takes the first element off, or nothing, if the node is one that earlier visits have left behind.  Behind the
  visit the walk follows the rest of the agenda, and the open sink holds the bytes that the agenda has written, too
  (`Approaching.visit`); and if the visit fails, so does the agenda.  There is one lemma for each kind of node.
-/
import Stencil.Proofs.Meaning.Keeping
import Stencil.Proofs.Meaning.Rendering
import Stencil.Proofs.Meaning.Turning
import Stencil.Proofs.Meaning.Unfolding
import Stencil.Proofs.Walk.Rounds

set_option autoImplicit false

namespace Stencil.Meaning

open Stencil.Tree (Under)
open Stencil.Walk (Holding Visiting Visit takeRun tagOf fillItem onSink putValue)
open Loop.Turn (Continues Ends)

variable {outputs stray : Bool} {t t' : Tree} {n p q : NodeId} {e : Element} {es : List Element} {a a' : Agenda}
  {w w' : Walk} {f g : Frame} {r : Run} {loops : List Loop} {scan : List Position} {o : Options} {k : Sink} {bs : Bytes}

/-! ## Following -/

/-- The walk `w` of a template, in the frame `f` and between two runs, has the records of an agenda.  `stray` says
    whether the template is itself a loop. -/
structure Afoot (stray : Bool) (w : Walk) (f : Frame) (a : Agenda) : Prop where
  frames : w.frames = [f]
  main : IsMain f
  idle : f.run = none
  records : SameRecords w a
  root : w.space.tree.name 0 = "repeat" ↔ stray = true

/-- A run below `p` goes along an agenda. -/
structure Along (outputs : Bool) (t : Tree) (p : NodeId) (r : Run) (loops : List Loop) (scan : List Position)
    (a : Agenda) : Prop where
  surrounded : Surrounded outputs t 0 p loops scan a.outer
  first : t.parent? r.first = some p
  key : r.key = a.key
  ahead : AheadAt outputs t p r.next a.ahead

/-- What a walk has to do yet is an agenda. -/
inductive Tracks (outputs stray : Bool) (w : Walk) (a : Agenda) : Prop
  /-- It is in a run; if a change of output is due, it is one that stands in the run. -/
  | running {f g : Frame} {r : Run} {p : NodeId} (frames : w.frames = [f]) (taken : takeRun f = some (r, g))
      (afoot : Afoot stray { w with frames := [g] } g a) (along : Along outputs w.space.tree p r g.loops g.scan a)
      (beside : ∀ n, w.rotation = some n → w.space.tree.parent? n = some p) : Tracks outputs stray w a
  /-- Nothing is left to do. -/
  | finished (frames : w.frames = [] ∨ ∃ f, w.frames = [f] ∧ takeRun f = none) (rotation : w.rotation = none)
      (ends : a.step stray = .ends) : Tracks outputs stray w a

/-- The records are the same, and the template is one. -/
theorem Afoot.of_eq (h : Afoot stray w f a) (hf : w'.frames = [g]) (hsame : Walk.SameFrame f g) (hidle : g.run = none)
    (hr : SameRecords w' a') (hname : w'.space.tree.name 0 = w.space.tree.name 0) : Afoot stray w' g a' where
  frames := hf
  main := ⟨hsame.source.trans h.main.source, hsame.sees.trans h.main.sees, hsame.owned.trans h.main.owned⟩
  idle := hidle
  records := hr
  root := by rw [hname]; exact h.root

/-- What changes below a node of a document does not change what the root is called. -/
theorem Beneath.name_root (hroot : Walk.IsRoot t 0) (h : Beneath t n t') : t'.name 0 = t.name 0 := by
  refine (h.name_of hroot.live ?_).1
  by_cases hu : Under t n 0
  · exact .inr (hu.eq_of_root hroot.parent?)
  · exact .inl hu

/-- A walk between two runs that goes on at a position. -/
theorem Tracks.of_scan {pos : Position} (h : Afoot stray w f a) (hscan : f.scan = pos :: scan)
    (hsur : Surrounded outputs w.space.tree 0 q f.loops scan a.outer) (hkey : pos.key = a.key)
    (hahead : AheadAt outputs w.space.tree q (some pos.node) a.ahead) (hrot : w.rotation = none) :
    Tracks outputs stray w a := by
  have htaken : takeRun f = some (⟨pos.key, pos.node, some pos.node, scan.length⟩, { f with scan }) := by
    unfold takeRun
    rw [h.idle, hscan]
  refine .running h.frames htaken
    (h.of_eq rfl ⟨rfl, rfl, rfl⟩ h.idle ⟨h.records.main, h.records.secondary⟩ rfl) ⟨hsur, hahead.1, hkey, hahead⟩
    fun n hn => ?_
  rw [hrot] at hn
  cases hn

/-- A walk that goes on in its run, behind the node `n`. -/
theorem Tracks.of_resume (h : Afoot stray w f a) (hwf : w.space.tree.WellFormed)
    (hsur : Surrounded outputs w.space.tree 0 p f.loops f.scan a.outer) (hfirst : w.space.tree.parent? r.first = some p)
    (hbase : r.base = f.scan.length) (hkey : r.key = a.key) (hp : w.space.tree.parent? n = some p)
    (hahead : Lists outputs w.space.tree (w.space.tree.followingSiblings n) a.ahead)
    (hrot : ∀ m, w.rotation = some m → m = n) :
    ∃ w', Walk.resume r n w = .ok () w' ∧ w' = { w with frames := w'.frames } ∧ Tracks outputs stray w' a := by
  refine ⟨{ w with frames := [{ f with run := some { r with next := w.space.tree.nextSibling? n } }] }, ?_, rfl, ?_⟩
  · unfold Walk.resume
    rw [Action.modify_eq_ok]
    simp only [h.frames, hbase, if_true]
  · refine .running rfl rfl (h.of_eq rfl ⟨rfl, rfl, rfl⟩ rfl ⟨h.records.main, h.records.secondary⟩ rfl)
      ⟨hsur, hfirst, hkey, aheadAt_nextSibling hwf hp hahead⟩ fun m hm => ?_
    rw [hrot m hm]
    exact hp

/-- A walk that goes on elsewhere does not go on in its run. -/
theorem resume_elsewhere (hf : w.frames = [f]) (hbase : f.scan.length ≠ r.base) : Walk.resume r n w = .ok () w := by
  unfold Walk.resume
  rw [Action.modify_eq_ok]
  simp only [hf, if_neg hbase]

/-! ## Behind a visit -/

/-- What a visit of `n`, and going on behind it, comes to in a walk that follows an agenda, if the open sink `k` holds
    the bytes `bs`. -/
def Proceeds (outputs stray : Bool) (k : Sink) (bs : Bytes) (r : Run) (n : NodeId) (a : Agenda) :
    EStateM.Result Error Walk Visit → Prop
  | .error _ _ => ∃ cs, Outcome stray a cs false
  | .ok v w => ∃ w' cs a', Walk.resume r n w = .ok () w' ∧ Leads stray a cs a' ∧ Tracks outputs stray w' a'
    ∧ match v with
      | .done => Holding w' k (bs ++ cs) ∧ w'.rotation = none
      | .yield s => outputs = true ∧ cs = [] ∧ s.toBytes = bs ∧ w'.rotation = some n
      | .enter _ => False

/-- The walk `w`, in the run `r` below `p`, follows an agenda and is about to visit `n`. -/
structure Approaching (outputs stray : Bool) (w : Walk) (f : Frame) (p : NodeId) (r : Run) (n : NodeId) (a : Agenda) :
    Prop where
  visiting : Visiting w f [] 0 [] p r n
  afoot : Afoot stray w f a
  along : Along outputs w.space.tree p r f.loops f.scan a
  rotation : w.rotation = none

section

variable (h : Approaching outputs stray w f p r n a)

include h

theorem Approaching.parent? : w.space.tree.parent? n = some p := h.visiting.parent?

theorem Approaching.placed : w.space.tree.name p = "item" → w.space.tree.parent? p = none :=
  h.along.surrounded.placed h.visiting.isRoot.parent?

/-- No change of output is due. -/
theorem Approaching.rotation_of_eq (hw : w'.rotation = w.rotation) (m : NodeId) (hm : w'.rotation = some m) :
    m = n := by
  rw [hw, h.rotation] at hm
  cases hm

/-- What comes next is what comes next on the agenda. -/
theorem Approaching.lists : Lists outputs w.space.tree (n :: w.space.tree.followingSiblings n) a.ahead := by
  have hahead := h.along.ahead
  rw [h.visiting.next] at hahead
  exact hahead.2

/-- The walk goes on in its run, behind a visit that has changed nothing but what stands below `n`. -/
theorem Approaching.resumed (hr : SameRecords w' a') (hpat : Patched outputs w.space.tree n w'.space.tree)
    (hframes : w'.frames = w.frames) (houter : a'.outer = a.outer) (hkey : a'.key = a.key)
    (hahead : Lists outputs w.space.tree (w.space.tree.followingSiblings n) a'.ahead)
    (hrot : ∀ m, w'.rotation = some m → m = n) :
    ∃ w₂, Walk.resume r n w' = .ok () w₂ ∧ w₂ = { w' with frames := w₂.frames } ∧ Tracks outputs stray w₂ a' := by
  have hwf := h.visiting.wellFormed
  have hp := h.parent?
  have hroot := h.visiting.isRoot
  have hfollowing : ∀ m ∈ w.space.tree.followingSiblings n, w.space.tree.parent? m = some p :=
    fun m hm => parent?_of_mem_following hwf hp hm
  have hafoot : Afoot stray w' f a' := h.afoot.of_eq (hframes.trans h.afoot.frames) (.refl f) h.afoot.idle hr
    (hpat.toBeneath.name_root hroot)
  obtain ⟨hp', -, hsame⟩ := hpat.sibling hwf hp hp
  refine Tracks.of_resume hafoot hpat.wellFormed ?_ (hpat.sibling hwf hp h.along.first).1 h.visiting.running.base
    (h.along.key.trans hkey.symm) hp' ?_ hrot
  · rw [houter]
    exact h.along.surrounded.relisted hwf hroot.parent? (hpat.relisted hwf hp)
  · rw [hsame]
    exact hahead.patched hwf hp hpat hfollowing

theorem Approaching.patched_self : Patched outputs w.space.tree n w.space.tree := by
  refine ⟨.refl h.visiting.wellFormed n, fun q hq => ?_, fun _ he => he⟩
  rw [h.parent?] at hq
  cases hq
  exact h.placed

/-- A visit that changes nothing. -/
theorem Approaching.still (hold : Holding w k bs) (hl : Leads stray a [] a') (hr : SameRecords w a')
    (houter : a'.outer = a.outer) (hkey : a'.key = a.key)
    (hahead : Lists outputs w.space.tree (w.space.tree.followingSiblings n) a'.ahead) :
    Proceeds outputs stray k bs r n a (.ok .done w) := by
  obtain ⟨w₂, hw₂, hrest, hf⟩ := h.resumed hr h.patched_self rfl houter hkey hahead (h.rotation_of_eq rfl)
  refine ⟨w₂, [], a', hw₂, hl, hf, ?_, ?_⟩
  · rw [List.append_nil]
    exact hold.of_eq (by rw [hrest])
  · rw [hrest]
    exact h.rotation

omit h in
theorem tagOf_of_name (tag : Tag) (hname : t.name n = Walk.nameOf tag) : tagOf t n = .ok tag := by
  unfold tagOf
  rw [hname]
  cases tag <;> rfl

omit h in
/-- In such a template, no node stands for another document. -/
theorem Mirrors.name_ne_import (hm : Mirrors outputs t n e) : t.name n ≠ "import" := by
  intro hname
  obtain ⟨name, attrs, text, computed, cs⟩ := e
  rw [Mirrors, hname] at hm
  obtain ⟨⟨rfl, -⟩ | ⟨-, hw, -⟩, hc⟩ := hm
  · exact hc
  · exact absurd hw (by decide)

/-! ## Fields -/

theorem recordValue_eq_of_mirrors (hname : w.space.tree.name n = "item") (hm : Mirrors outputs w.space.tree n e) :
    w.recordValue f (w.space.tree.keyPath r.key n) n = a.recordValue e := by
  have hne : w.space.tree.name n ≠ "writer" := by rw [hname]; decide
  have hrec := h.afoot.records
  unfold Walk.recordValue Agenda.recordValue
  dsimp only
  rw [hm.keyPath hne, hm.attr? hne, h.along.key, hrec.secondary.field?, h.afoot.main.sees, h.afoot.main.source,
    hrec.main]
  simp only [and_true]
  rfl

/-- A field is filled with the value that the agenda says. -/
theorem visit_item (hname : w.space.tree.name n = "item") (hm : Mirrors outputs w.space.tree n e) :
    Walk.visit o f r.key n w = (do
      onSink fun files => Job.setData o files n
      return Visit.done)
        { w with space := { w.space with tree := putValue w.space.tree n (a.recordValue e) } } := by
  have hfill : fillItem f r.key n w
      = .ok () { w with space := { w.space with tree := putValue w.space.tree n (a.recordValue e) } } := by
    rw [fillItem, Action.get_bind]
    dsimp only
    rw [recordValue_eq_of_mirrors h hname hm]
    exact Walk.modifyTree_eq_ok.mpr rfl
  have hvisit : Walk.visit o f r.key n w = (do
      fillItem f r.key n
      onSink fun files => Job.setData o files n
      return Visit.done) w := by
    rw [Walk.visit, Action.get_bind, tagOf_of_name .item hname]
    rfl
  rw [hvisit, Action.bind_of_ok hfill]

/-- A field is filled and written. -/
theorem Approaching.item (hold : Holding w k bs) (hname : w.space.tree.name n = "item") (ha : a.ahead = e :: es)
    (hm : Mirrors outputs w.space.tree n e) (hes : Lists outputs w.space.tree (w.space.tree.followingSiblings n) es) :
    Proceeds outputs stray k bs r n a (Walk.visit o f r.key n w) := by
  have hwf := h.visiting.wellFormed
  obtain ⟨hen, hattrs, hsimple, -⟩ := (mirrors_item hname).mp hm
  have hstep := Agenda.step_of_item stray ha hen
  rw [visit_item h hname hm]
  generalize a.recordValue e = value at hstep ⊢
  obtain ⟨hb, hfilled⟩ := filled_putValue hwf h.parent? hname hm value
  have hopen := hold
  obtain ⟨s, hs, -⟩ := hopen
  have hset := setData_of_filled (o := o)
    (j := ⟨{ w.space with tree := putValue w.space.tree n value }, s⟩) w.files (simple_of_simpleField hsimple)
    (hb.attrs.trans hattrs) hfilled
  rcases hset with ⟨bytes, space, g, hbytes, hjob, hg, htree⟩ | ⟨err, err', j', hbytes, hjob⟩
  · have hput : onSink (fun files => Job.setData o files n)
        { w with space := { w.space with tree := putValue w.space.tree n value } }
        = .ok () { w with space, sink := some (s.flush.emit none bytes) } := by
      unfold onSink
      simp only [hs, hjob]
    rw [Action.bind_of_ok hput]
    rw [hbytes] at hstep
    have hpat : Patched outputs w.space.tree n space.tree := by
      rw [htree]
      exact patched_putValue hwf h.parent? hname h.placed hm hg
    have hr : SameRecords { w with space, sink := some (s.flush.emit none bytes) } { a with ahead := es } :=
      ⟨h.afoot.records.main, h.afoot.records.secondary⟩
    obtain ⟨w₂, hw₂, hrest, hf⟩ := h.resumed hr hpat rfl rfl rfl hes (h.rotation_of_eq rfl)
    refine ⟨w₂, bytes, _, hw₂, .of_step hstep, hf, ?_, ?_⟩
    · exact hold.emit hs (by rw [hrest])
    · rw [hrest]
      exact h.rotation
  · have hput : onSink (fun files => Job.setData o files n)
        { w with space := { w.space with tree := putValue w.space.tree n value } }
        = .error err' { w with space := j'.space, sink := some j'.sink } := by
      unfold onSink
      simp only [hs, hjob]
    rw [Action.bind_of_error hput]
    rw [hbytes] at hstep
    exact ⟨[], .fails hstep⟩

/-! ## Groups -/

/-- What going into the group `n` does: there is a node behind it, perhaps one that has been put there. -/
structure Into (outputs : Bool) (t : Tree) (p n first next : NodeId) (body es : List Element) (t' : Tree) : Prop where
  relisted : Relisted outputs t p t'
  parent : t'.parent? n = some p
  name : t'.name n = "items"
  firstChild : t'.firstChild? n = some first
  body : MirrorsAll outputs t' (t'.children n) body
  ahead : AheadAt outputs t' p (some next) es

omit h in
theorem into_of_descend {first next : NodeId} {body : List Element} (hwf : t.WellFormed) (hp : t.parent? n = some p)
    (hname : t.name n = "items") (hfirst : t.firstChild? n = some first)
    (hnext : t.nextSibling? n = some next ∧ t' = t ∨ t.nextSibling? n = none ∧ Walk.Marked t p next t')
    (hbody : MirrorsAll outputs t (t.children n) body) (hes : Lists outputs t (t.followingSiblings n) es) :
    Into outputs t p n first next body es t' := by
  have hahead := aheadAt_nextSibling hwf hp hes
  rcases hnext with ⟨hsibling, rfl⟩ | ⟨hlast, hmarked⟩
  · rw [hsibling] at hahead
    exact ⟨⟨.refl hwf p, fun _ hes => hes⟩, hp, hname, hfirst, hbody, hahead⟩
  · have hnode := node_of_marked hwf hp hmarked
    obtain ⟨hpn, hnop, hnone⟩ := marker_of_marked hwf hp hlast hmarked
    rw [hlast] at hahead
    refine ⟨relisted_of_marked hwf hp hname hlast hmarked, ?_, (congrArg Node.name hnode).trans hname, ?_,
      body_of_marked hwf hp hmarked hbody, hpn, ?_⟩
    · exact (congrArg Node.parent hnode).trans hp
    · unfold Tree.firstChild? Tree.children at hfirst ⊢
      rw [hnode]
      exact hfirst
    · rw [hnone, show es = [] from hahead]
      refine ⟨[next], [], rfl, fun m hm => ?_, mirrorsAll_nil.mpr rfl⟩
      rw [List.mem_singleton.mp hm]
      exact hnop

/-- What comes next in a group is put in front of what the walk has still to do. -/
theorem visit_items {scan : List Position} (hname : w.space.tree.name n = "items")
    (hd : Walk.descend w.space.tree f.scan r.key n = .ok (t', scan)) : Walk.visit o f r.key n w
      = .ok .done { w with space := { w.space with tree := t' }, frames := [{ f with scan }] } := by
  rw [Walk.visit, Action.get_bind, tagOf_of_name .items hname]
  dsimp only
  rw [hd]
  refine (Action.bind_of_ok rfl).trans ((Action.bind_of_ok rfl).trans ?_)
  refine (Action.bind_of_ok ((Walk.modifyTree_eq_ok (u := ())).mpr rfl)).trans ?_
  refine (Action.bind_of_ok ((Walk.modifyFrame_eq_ok (u := ())).mpr rfl)).trans ?_
  rw [h.afoot.frames]
  rfl

/-- A group is gone into, or it is left out if there is nothing in it. -/
theorem Approaching.items {traces rest : List NodeId} (hold : Holding w k bs) (hname : w.space.tree.name n = "items")
    (ha : a.ahead = e :: es) (hm : Mirrors outputs w.space.tree n e)
    (hfollowing : w.space.tree.followingSiblings n = traces ++ rest)
    (htraces : ∀ m ∈ traces, IsTrace w.space.tree n m) (hrest : MirrorsAll outputs w.space.tree rest es) :
    Proceeds outputs stray k bs r n a (Walk.visit o f r.key n w) := by
  have hwf := h.visiting.wellFormed
  have hp := h.parent?
  have hroot := h.visiting.isRoot
  have hrecords := h.afoot.records
  obtain ⟨hen, -, hchildren⟩ := (mirrors_items hname).mp hm
  have hkey : w.space.tree.keyPath r.key n = keyIn a.key e := by
    rw [hm.keyPath (by rw [hname]; decide), h.along.key]
  have hes : Lists outputs w.space.tree (w.space.tree.followingSiblings n) es := by
    refine ⟨traces, rest, hfollowing, fun m hm => ?_, hrest⟩
    rcases htraces m hm with ⟨-, hnop⟩ | ⟨hloop, -⟩
    · exact hnop
    · rw [hname] at hloop
      exact absurd hloop (by decide)
  have hstep : a.step stray = if e.children.isEmpty then .goesOn [] { a with ahead := es } else .goesOn [] { a with
      key := keyIn a.key e, ahead := e.children, outer := .group a.key es :: a.outer } := by
    unfold Agenda.step
    rw [ha]
    dsimp only
    unfold Agenda.visit
    rw [hen]
    rfl
  obtain ⟨t', scan', hd⟩ := Walk.exists_descend hwf hp r.key f.scan
  rw [visit_items h hname hd]
  rcases Walk.descend_ok hwf hp hd with ⟨hnone, rfl, rfl⟩ | ⟨first, next, hfirst, rfl, hnext⟩
  · -- nothing stands in the group, and it is passed by
    have hempty : e.children = [] := hchildren.eq_nil_iff.mp (List.head?_eq_none_iff.mp hnone)
    rw [hempty] at hstep
    have hsame : ({ w with frames := [f] } : Walk) = w := by rw [← h.afoot.frames]
    have hstill := h.still hold (.of_step hstep) ⟨hrecords.main, hrecords.secondary⟩ rfl rfl hes
    exact hsame.symm ▸ hstill
  · have hsome : ¬ e.children.isEmpty = true := by
      intro hempty
      rw [List.isEmpty_iff, ← hchildren.eq_nil_iff] at hempty
      rw [Tree.firstChild?, hempty] at hfirst
      cases hfirst
    rw [if_neg hsome] at hstep
    have hinto := into_of_descend hwf hp hname hfirst hnext hchildren hes
    have hafoot : Afoot stray { w with
        space := { w.space with tree := t' }
        frames := [{ f with scan := ⟨w.space.tree.keyPath r.key n, first⟩ :: ⟨r.key, next⟩ :: f.scan }] }
        { f with scan := ⟨w.space.tree.keyPath r.key n, first⟩ :: ⟨r.key, next⟩ :: f.scan }
        { a with key := keyIn a.key e, ahead := e.children, outer := .group a.key es :: a.outer } :=
      h.afoot.of_eq rfl ⟨rfl, rfl, rfl⟩ h.afoot.idle ⟨hrecords.main, hrecords.secondary⟩
        (hinto.relisted.toBeneath.name_root hroot)
    refine ⟨_, [], _, resume_elsewhere rfl ?_, .of_step hstep, .of_scan (q := n) hafoot rfl ?_ hkey ?_ h.rotation, ?_⟩
    · rw [h.visiting.running.base]
      show f.scan.length + 1 + 1 ≠ f.scan.length
      omega
    · rw [← h.along.key]
      exact .group (h.along.surrounded.relisted hwf hroot.parent? hinto.relisted) hinto.parent hinto.name hinto.ahead
    · exact aheadAt_firstChild hinto.relisted.wellFormed hinto.firstChild hinto.body
    · rw [List.append_nil]
      exact ⟨hold.of_eq rfl, h.rotation⟩

end

/-! ## Loops -/

/-- The loop `l`, at a child of `p`, is about to be asked for one more run. -/
structure AtLoop (outputs stray : Bool) (w : Walk) (f : Frame) (p : NodeId) (l : Loop) (outer : List Loop)
    (body behind : List Element) (a : Agenda) : Prop where
  wellFormed : w.space.tree.WellFormed
  isRoot : Walk.IsRoot w.space.tree 0
  afoot : Afoot stray w f a
  parent : w.space.tree.parent? l.anchor = some p
  name : w.space.tree.name l.anchor = "repeat"
  surrounded : Surrounded outputs w.space.tree 0 p outer f.scan a.outer
  body : MirrorsAll outputs w.space.tree (w.space.tree.children l.anchor) body
  ahead : MirrorsAll outputs w.space.tree (w.space.tree.followingSiblings l.anchor) behind

namespace AtLoop

variable {l l' : Loop} {outer : List Loop} {body behind : List Element} {s : Loop.Turn} {more : Bool}
  (h : AtLoop outputs stray w f p l outer body behind a)

include h

theorem turn_error {err : Error} (ht : Walk.turn f l w = .error err w') :
    a.turn { l with anchor := 0 } body behind = none :=
  turn_of_error h.afoot.records h.afoot.main h.wellFormed h.parent ht

/-- What the loop says, in the walk and on the agenda. -/
theorem turn_ok (ht : Walk.turn f l w = .ok (more, l') w') : ∃ s a', l' = s.loop ∧ Walk.Turned w f [] s w'
    ∧ (if more then Continues ⟨l, w.space.tree, w.feedOf f l, f.scan⟩ p s
        else Ends ⟨l, w.space.tree, w.feedOf f l, f.scan⟩ s)
    ∧ a.turn { l with anchor := 0 } body behind = some (more, a') ∧ SameRecords w' a'
    ∧ if more then a'.key = l.bodyKey ∧ a'.ahead = body
        ∧ a'.outer = .loop { l' with anchor := 0 } body behind :: a.outer
      else a'.key = l.key ∧ a'.ahead = behind ∧ a'.outer = a.outer := by
  have hbody : w.space.tree.children l.anchor = [] ↔ body = [] := h.body.eq_nil_iff
  obtain ⟨a', hturn, hr, hresult⟩ :=
    turn_of_ok h.afoot.records h.afoot.main h.wellFormed h.parent behind hbody ht
  obtain ⟨s, hnext, hl, rfl⟩ := Walk.turn_ok ht
  have hstep := Loop.Turn.next_ok (p := p) h.wellFormed h.parent hnext
  have hfeed : Loop.SameFeed (w.feedOf f l) s.feed := by
    cases more with
    | true => exact hstep.feed
    | false => exact hstep.feed
  exact ⟨s, a', hl, Walk.turned_afterTurn h.afoot.frames hfeed, hstep, hturn, hr, hresult⟩

/-- A loop that goes on: the walk is in its next run. -/
theorem tracks_run (hc : Continues ⟨l, w.space.tree, w.feedOf f l, f.scan⟩ p s) (htree : w'.space.tree = s.tree)
    (hframes : w'.frames = [{ f with scan := s.scan, loops := s.loop :: outer }]) (hrot : w'.rotation = none)
    (hr : SameRecords w' a') (hkey : a'.key = l.bodyKey) (hahead : a'.ahead = body)
    (houter : a'.outer = .loop { s.loop with anchor := 0 } body behind :: a.outer) :
    Tracks outputs stray w' a' := by
  have hwf := h.wellFormed
  have hadv := hc.advanced
  obtain ⟨first, hscan, hfirst⟩ := hc.begins
  have hplaced := h.surrounded.placed h.isRoot.parent?
  obtain ⟨hrel, hbody, hbehind⟩ : Relisted outputs w.space.tree p s.tree ∧ _ :=
    kept_of_advanced hwf h.parent hadv h.name hplaced
  have hname : w'.space.tree.name 0 = w.space.tree.name 0 := by
    rw [htree]
    exact hrel.toBeneath.name_root h.isRoot
  have hafoot : Afoot stray w' { f with scan := s.scan, loops := s.loop :: outer } a' :=
    h.afoot.of_eq hframes ⟨rfl, rfl, rfl⟩ h.afoot.idle hr hname
  refine .of_scan (q := s.loop.anchor) hafoot hscan ?_ hkey.symm ?_ hrot
  · rw [houter, htree]
    exact .loop (h.surrounded.relisted hwf h.isRoot.parent? hrel) hadv.parent (hadv.name.trans h.name) (hbody _ h.body)
      (hbehind _ h.ahead)
  · rw [hahead, htree]
    exact aheadAt_firstChild hadv.wellFormed hfirst (hbody _ h.body)

/-- A loop that ends and has something behind it: the walk is there. -/
theorem tracks_behind {next : NodeId} (hnext : w.space.tree.nextSibling? l.anchor = some next)
    (htree : w'.space.tree = w.space.tree)
    (hframes : w'.frames = [{ f with scan := ⟨l.key, next⟩ :: f.scan, loops := outer }]) (hrot : w'.rotation = none)
    (hr : SameRecords w' a') (hkey : a'.key = l.key) (hahead : a'.ahead = behind) (houter : a'.outer = a.outer) :
    Tracks outputs stray w' a' := by
  have hafoot : Afoot stray w' { f with scan := ⟨l.key, next⟩ :: f.scan, loops := outer } a' :=
    h.afoot.of_eq hframes ⟨rfl, rfl, rfl⟩ h.afoot.idle hr (by rw [htree])
  refine .of_scan (q := p) hafoot rfl ?_ hkey.symm ?_ hrot
  · rw [houter, htree]
    exact h.surrounded
  · have hbehind := aheadAt_nextSibling h.wellFormed h.parent (.of_mirrorsAll h.ahead)
    rw [hnext] at hbehind
    rw [hahead, htree]
    exact hbehind

end AtLoop

section

variable (h : Approaching outputs stray w f p r n a)

include h

/-- The loop that is declared in the walk is the one that is declared on the agenda. -/
theorem Approaching.declared (hname : w.space.tree.name n = "repeat") (ha : a.ahead = e :: es)
    (hm : Mirrors outputs w.space.tree n e) :
    match Loop.declared w.space.tree n r.key w.secondary with
    | .error _ => a.step stray = .fails
    | .ok l => l.anchor = n ∧ a.step stray
        = (a.turn { l with anchor := 0 } e.children es).elim .fails fun r => .goesOn [] r.2 := by
  obtain ⟨hen, -, hmax, -⟩ := (mirrors_loop hname).mp hm
  have hattr : ∀ name, (Tree.ofElement e).attr? 0 name = w.space.tree.attr? n name := fun name =>
    (attr?_ofElement e name).trans (hm.attr? (by rw [hname]; decide) name).symm
  have hlit : (w.space.tree.attr? n "max").isSome ∨ w.space.tree.attr? n "xmax" = none := by
    unfold literalMax at hmax
    rwa [Bool.or_eq_true, Option.isNone_iff_eq_none, ← attr?_ofElement, ← attr?_ofElement, hattr, hattr] at hmax
  have halike := declared_alike hattr r.key h.afoot.records.secondary hlit
  have hstep : a.step stray = match Loop.declared (Tree.ofElement e) 0 r.key a.secondary with
      | .error _ => .fails
      | .ok l => (a.turn l e.children es).elim .fails fun r => .goesOn [] r.2 := by
    unfold Agenda.step
    rw [ha]
    dsimp only
    unfold Agenda.visit
    rw [hen, h.along.key]
    rfl
  cases hd : Loop.declared w.space.tree n r.key w.secondary with
  | error err =>
    rw [hd] at halike
    cases hd' : Loop.declared (Tree.ofElement e) 0 r.key a.secondary with
    | ok l =>
      rw [hd'] at halike
      cases halike
    | error err' =>
      rw [hd'] at hstep
      exact hstep
  | ok l =>
    rw [hd] at halike
    cases hd' : Loop.declared (Tree.ofElement e) 0 r.key a.secondary with
    | error err' =>
      rw [hd'] at halike
      cases halike
    | ok l' =>
      rw [hd'] at halike hstep
      cases halike
      exact ⟨(Loop.declared_ok hd).2.2.2, hstep⟩

/-- A loop is entered: it is about to be asked for its first run. -/
theorem Approaching.entered {l : Loop} {traces rest : List NodeId} (hname : w.space.tree.name n = "repeat")
    (hm : Mirrors outputs w.space.tree n e) (hfollowing : w.space.tree.followingSiblings n = traces ++ rest)
    (htraces : ∀ m ∈ traces, IsTrace w.space.tree n m) (hcopies : ∀ m ∈ rest.head?, ¬ IsCopy w.space.tree n m)
    (hrest : MirrorsAll outputs w.space.tree rest es) (hd : Loop.declared w.space.tree n r.key w.secondary = .ok l)
    (hl : l.anchor = n) : ∃ t₁, Loop.enter n r.key w.secondary w.space.tree = .ok l t₁
      ∧ AtLoop outputs stray { w with space := { w.space with tree := t₁ } } f p l f.loops e.children es a
      ∧ t₁.parent? r.first = some p := by
  have hwf := h.visiting.wellFormed
  have hp := h.parent?
  have hroot := h.visiting.isRoot
  have hrecords := h.afoot.records
  obtain ⟨-, -, -, hid, hbody⟩ := (mirrors_loop hname).mp hm
  have he := Loop.entered hwf hp
  refine ⟨(Loop.dropCopies w.space.tree n).setSeq n 0, ?_, ?_⟩
  · rw [Loop.enter, Action.get_bind, hd]
    rfl
  · generalize (Loop.dropCopies w.space.tree n).setSeq n 0 = t₁ at he
    have hrel : Relisted outputs w.space.tree p t₁ := relisted_of_entered hwf hp he hname hid
    have hrunning := Walk.running_of_entered hwf hroot.live hp he h.visiting.next h.visiting.running
    have hroot' : Walk.IsRoot t₁ 0 := (Walk.around_of_entered hwf List.not_mem_nil hroot.parent?
      h.visiting.running.standing.inner hp he).isRoot 0 hroot
    have hafoot : Afoot stray { w with space := { w.space with tree := t₁ } } f a :=
      h.afoot.of_eq h.afoot.frames (.refl f) h.afoot.idle ⟨hrecords.main, hrecords.secondary⟩
        (hrel.toBeneath.name_root hroot)
    subst hl
    exact ⟨⟨he.wellFormed, hroot', hafoot, (hrunning.next _ h.visiting.next).1,
      (Walk.anchor_of_entered he).1.trans hname, h.along.surrounded.relisted hwf hroot.parent? hrel,
      body_of_entered hwf hp he hbody, following_of_entered hwf hp he hname hid hfollowing htraces hcopies hrest⟩,
      hrunning.first⟩

/-- What the loop that has been entered says. -/
theorem Approaching.turned {l l' : Loop} {t₁ : Tree} {body : List Element} {more : Bool} {w₂ : Walk}
    (hold : Holding w k bs) (hfirst : t₁.parent? r.first = some p) (hkey : l.key = r.key)
    (hat : AtLoop outputs stray { w with space := { w.space with tree := t₁ } } f p l f.loops body es a)
    (hl : l.anchor = n) (ht : Walk.turn f l { w with space := { w.space with tree := t₁ } } = .ok (more, l') w₂) :
    ∃ a', a.turn { l with anchor := 0 } body es = some (more, a') ∧ ∃ w₃, Walk.resume r n
      (if more then { w₂ with frames := w₂.frames.map fun g => { g with loops := l' :: g.loops } } else w₂) = .ok () w₃
      ∧ Tracks outputs stray w₃ a' ∧ Holding w₃ k bs ∧ w₃.rotation = none := by
  obtain ⟨s, a', rfl, hturned, hnext, hturn, hr, hresult⟩ := hat.turn_ok ht
  have hrot : w₂.rotation = none := hturned.rotation.trans h.rotation
  have hframes := hturned.frames
  have hbase := h.visiting.running.base
  refine ⟨a', hturn, ?_⟩
  cases more with
  | true =>
    have hc : Continues _ p s := hnext
    obtain ⟨first, hscan, -⟩ := hc.begins
    have hmap : w₂.frames.map (fun g => { g with loops := s.loop :: g.loops })
        = [{ f with scan := s.scan, loops := s.loop :: f.loops }] := by rw [hframes]; rfl
    refine ⟨_, resume_elsewhere hmap ?_, hat.tracks_run hc hturned.tree hmap hrot ⟨hr.main, hr.secondary⟩ hresult.1
      hresult.2.1 hresult.2.2, hold.of_eq hturned.sink, hrot⟩
    rw [hbase]
    show s.scan.length ≠ f.scan.length
    rw [hscan]
    exact Nat.succ_ne_self _
  | false =>
    have hends : Ends _ s := hnext
    have htree : w₂.space.tree = t₁ := hturned.tree.trans hends.tree
    rw [hends.scan, Loop.Turn.behind] at hframes
    dsimp only at hframes
    cases hsibling : t₁.nextSibling? l.anchor with
    | some next =>
      rw [hsibling] at hframes
      refine ⟨_, resume_elsewhere hframes ?_, hat.tracks_behind hsibling htree hframes hrot hr hresult.1 hresult.2.1
        hresult.2.2, hold.of_eq hturned.sink, hrot⟩
      rw [hbase]
      exact Nat.succ_ne_self _
    | none =>
      -- the walk goes on in its run, and that is at its end
      rw [hsibling] at hframes
      have hafoot := hat.afoot.of_eq hframes (.refl f) h.afoot.idle hr (by rw [htree])
      subst hl
      obtain ⟨w₃, hw₃, hrest, htracks⟩ := Tracks.of_resume (r := r) hafoot (htree ▸ hat.wellFormed)
        (by rw [hresult.2.2, htree]; exact hat.surrounded) (by rw [htree]; exact hfirst) hbase
        (hkey.symm.trans hresult.1.symm) (by rw [htree]; exact hat.parent)
        (by rw [hresult.2.1, htree]; exact .of_mirrorsAll hat.ahead) fun m hm => by rw [hrot] at hm; cases hm
      refine ⟨w₃, hw₃, htracks, ?_, ?_⟩
      · rw [hrest]
        exact hold.of_eq hturned.sink
      · rw [hrest]
        exact hrot

/-- A loop begins, or it ends at once. -/
theorem Approaching.loop {traces rest : List NodeId} (hold : Holding w k bs) (hname : w.space.tree.name n = "repeat")
    (ha : a.ahead = e :: es) (hm : Mirrors outputs w.space.tree n e)
    (hfollowing : w.space.tree.followingSiblings n = traces ++ rest)
    (htraces : ∀ m ∈ traces, IsTrace w.space.tree n m) (hcopies : ∀ m ∈ rest.head?, ¬ IsCopy w.space.tree n m)
    (hrest : MirrorsAll outputs w.space.tree rest es) :
    Proceeds outputs stray k bs r n a (Walk.visit o f r.key n w) := by
  have hvisit : Walk.visit o f r.key n w = (Walk.startLoop f r.key n >>= fun _ => pure Visit.done) w := by
    rw [Walk.visit, Action.get_bind, tagOf_of_name .loop hname]
    rfl
  have hstart : Walk.startLoop f r.key n w = (Walk.onTree (Loop.enter n r.key w.secondary) >>= fun l =>
      Walk.turn f l >>= fun turned =>
        if turned.1 then Walk.modifyFrame fun f => { f with loops := turned.2 :: f.loops } else pure ()) w := by
    rw [Walk.startLoop, Action.get_bind, Walk.visible, if_pos h.afoot.main.sees]
  have hdeclared := h.declared hname ha hm
  cases hd : Loop.declared w.space.tree n r.key w.secondary with
  | error err =>
    -- what the loop declares is wrong, in the walk and on the agenda
    rw [hd] at hdeclared
    have henter : Loop.enter n r.key w.secondary w.space.tree = .error err w.space.tree := by
      rw [Loop.enter, Action.get_bind, hd]
      rfl
    have hdesk : Walk.onTree (Loop.enter n r.key w.secondary) w = .error err w := by
      simp only [Walk.onTree, Action.within, henter]
    rw [Action.bind_of_error hdesk] at hstart
    rw [hvisit, Action.bind_of_error hstart]
    exact ⟨[], .fails hdeclared⟩
  | ok l =>
    rw [hd] at hdeclared
    obtain ⟨hl, hstep⟩ := hdeclared
    obtain ⟨t₁, henter, hat, hfirst⟩ := h.entered hname hm hfollowing htraces hcopies hrest hd hl
    have hdesk : Walk.onTree (Loop.enter n r.key w.secondary) w
        = .ok l { w with space := { w.space with tree := t₁ } } := Action.within_eq_ok.mpr ⟨t₁, henter, rfl⟩
    rw [Action.bind_of_ok hdesk] at hstart
    cases ht : Walk.turn f l { w with space := { w.space with tree := t₁ } } with
    | error err w₂ =>
      -- it cannot be told whether there is a first run
      rw [hat.turn_error ht] at hstep
      rw [Action.bind_of_error ht] at hstart
      rw [hvisit, Action.bind_of_error hstart]
      exact ⟨[], .fails hstep⟩
    | ok result w₂ =>
      obtain ⟨more, l'⟩ := result
      obtain ⟨a', hturn, w₃, hw₃, htracks, hheld, hrot⟩ := h.turned hold hfirst (Loop.declared_ok hd).2.1 hat hl ht
      rw [hturn] at hstep
      have hframe : (if more then Walk.modifyFrame fun f => { f with loops := l' :: f.loops } else pure ()) w₂
          = .ok () (if more then { w₂ with frames := w₂.frames.map fun g => { g with loops := l' :: g.loops } }
            else w₂) := by
        cases more with
        | false => rfl
        | true =>
          refine Walk.modifyFrame_eq_ok.mpr ?_
          obtain ⟨s, -, -, hturned, -⟩ := hat.turn_ok ht
          simp only [hturned.frames]
          rfl
      rw [Action.bind_of_ok ht] at hstart
      rw [hvisit, Action.bind_of_ok (hstart.trans hframe)]
      refine ⟨w₃, [], a', hw₃, .of_step hstep, htracks, ?_, hrot⟩
      rw [List.append_nil]
      exact hheld

/-! ## All kinds of nodes -/

/-- A node that stands for nothing is passed by, whether a template has it or a visit has put it there. -/
theorem Approaching.nop (hold : Holding w k bs) (hname : w.space.tree.name n = "nop") (hl : Leads stray a [] a')
    (ha : a' = { a with ahead := a'.ahead })
    (hahead : Lists outputs w.space.tree (w.space.tree.followingSiblings n) a'.ahead) :
    Proceeds outputs stray k bs r n a (Walk.visit o f r.key n w) := by
  have hvisit : Walk.visit o f r.key n w = .ok .done w := by
    rw [Walk.visit, Action.get_bind, tagOf_of_name .nop hname]
    rfl
  rw [hvisit]
  exact h.still hold hl (by rw [ha]; exact ⟨h.afoot.records.main, h.afoot.records.secondary⟩) (by rw [ha]) (by rw [ha])
    hahead

/-- At a `writer`, the output that is open is handed out. -/
theorem Approaching.writer (hold : Holding w k bs) (hname : w.space.tree.name n = "writer") (hout : outputs = true)
    (hstep : a.step stray = .goesOn [] { a with ahead := es })
    (hes : Lists outputs w.space.tree (w.space.tree.followingSiblings n) es) :
    Proceeds outputs stray k bs r n a (Walk.visit o f r.key n w) := by
  obtain ⟨s, hs, s', hbytes, htake⟩ := hold.takeSink (o := o)
  have hvisit : Walk.visit o f r.key n w
      = .ok (.yield s'.flush) { Walk.keep s' { w with sink := none } with rotation := some n } := by
    rw [Walk.visit, Action.get_bind, tagOf_of_name .writer hname]
    refine (Action.bind_of_ok rfl).trans ?_
    dsimp only
    rw [Walk.visitWriter, Action.get_bind, hs]
    refine (Action.bind_of_ok htake).trans ?_
    rw [Action.modify_bind]
    rfl
  rw [hvisit]
  have hpat : Patched outputs w.space.tree n (Walk.keep s' { w with sink := none }).space.tree := by
    rw [Walk.keep_rest]
    exact h.patched_self
  have hrecords : SameRecords { Walk.keep s' { w with sink := none } with rotation := some n }
      { a with ahead := es } := by
    rw [Walk.keep_rest]
    exact ⟨h.afoot.records.main, h.afoot.records.secondary⟩
  obtain ⟨w₂, hw₂, hrest, htracks⟩ := h.resumed hrecords hpat (by rw [Walk.keep_rest]) rfl rfl hes fun m hm =>
    (Option.some.inj hm).symm
  refine ⟨w₂, [], _, hw₂, .of_step hstep, htracks, hout, rfl, ?_, ?_⟩
  · rw [Sink.toBytes_flush, hbytes]
  · rw [hrest]

/-- What a visit comes to, whatever the node is. -/
theorem Approaching.visit (hold : Holding w k bs) :
    Proceeds outputs stray k bs r n a (Walk.visit o f r.key n w) := by
  rcases h.lists.cases with ⟨hname, hl⟩ | ⟨e, es, traces, rest, ha, hfollowing, hm, htraces, hcopies, hrest⟩
  · exact h.nop hold hname (.refl a) rfl hl
  have hstep : a.step stray = a.visit e es := by
    unfold Agenda.step
    rw [ha]
  have hes (hi : w.space.tree.name n ≠ "items") (hl : w.space.tree.name n ≠ "repeat") :
      Lists outputs w.space.tree (w.space.tree.followingSiblings n) es := by
    rw [hfollowing, List.eq_nil_iff_forall_not_mem.mpr fun m hm =>
      (htraces m hm).elim (fun ht => hi ht.1) fun ht => hl ht.1]
    exact .of_mirrorsAll hrest
  unfold Agenda.visit at hstep
  cases htag : Tag.ofName? (w.space.tree.name n) with
  | none =>
    have hvisit : Walk.visit o f r.key n w = .error (.atSite (.unknownTag (w.space.tree.name n))
        (w.space.tree.describe n)) w := by
      rw [Walk.visit, Action.get_bind, tagOf, htag]
      rfl
    have hne : w.space.tree.name n ≠ "writer" := fun hw => by rw [hw] at htag; cases htag
    rw [hm.name hne, htag] at hstep
    rw [hvisit]
    exact ⟨[], .fails hstep⟩
  | some tag =>
    have hname := Walk.name_of_tag htag
    cases tag with
    | item => exact h.item hold hname ha hm (hes (by rw [hname]; decide) (by rw [hname]; decide))
    | items => exact h.items hold hname ha hm hfollowing htraces hrest
    | loop => exact h.loop hold hname ha hm hfollowing htraces hcopies hrest
    | document => exact absurd hname hm.name_ne_import
    | writer =>
      obtain ⟨hout, hen⟩ := (mirrors_writer hname e).mp hm
      rw [hen] at hstep
      exact h.writer hold hname hout hstep (hes (by rw [hname]; decide) (by rw [hname]; decide))
    | nop =>
      have hen : e.name = "nop" := (hm.name (by rw [hname]; decide)).trans hname
      rw [hen] at hstep
      have hl : Leads stray a [] { a with ahead := es } := .of_step hstep
      exact h.nop hold hname hl rfl
        (hes (by rw [hname]; decide) (by rw [hname]; decide))

end

end Stencil.Meaning
