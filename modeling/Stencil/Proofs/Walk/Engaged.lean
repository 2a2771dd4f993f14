/-
  What runs in the body of a loop.

  While a loop runs, others run in it.  If none of the loops that stand in its body moves the cursor over the
  secondary documents, none that comes to run in it does, however often bodies are entered and copied (`Engaged`).
  So the cursor stays where it is until the loop itself is asked for one more run:

    * a round that does not ask the loop keeps the cursor (`Coherent.engaged_round`),
    * and so does a round that asks it, up to that moment (`Coherent.engaged_asks`).
-/
import Stencil.Proofs.Walk.Bodies
import Stencil.Proofs.Walk.Forward

set_option autoImplicit false

namespace Stencil

/-! ## Loops that move the cursor -/

/-- The kinds of strategies. -/
inductive Strategy.Kind where
  | counted
  | documents
  | records
  deriving DecidableEq

/-- The kind of a strategy. -/
def Strategy.kind : Strategy → Strategy.Kind
  | .counted _ => .counted
  | .documents _ => .documents
  | .records _ => .records

theorem exists_of_kind_documents {s : Strategy} (h : s.kind = .documents) : ∃ previous, s = .documents previous := by
  cases s with
  | documents previous => exact ⟨previous, rfl⟩
  | counted b => cases h
  | records previous => cases h

theorem exists_of_kind_records {s : Strategy} (h : s.kind = .records) : ∃ previous, s = .records previous := by
  cases s with
  | records previous => exact ⟨previous, rfl⟩
  | counted b => cases h
  | documents previous => cases h

namespace Loop

variable {t t' : Tree} {n m : NodeId} {name : String} {b : Option Bool}

/-- What a node declares depends on its attributes. -/
theorem flag?_congr (h : (t'.node m).attrs = (t.node n).attrs) (hf : flag? t n name = .ok b) :
    flag? t' m name = .ok b := by
  have ha : t'.attr? m name = t.attr? n name := by
    unfold Tree.attr?
    rw [h]
  unfold flag? at hf ⊢
  rw [ha]
  generalize t.attr? n name = attr at hf ⊢
  cases attr with
  | none => exact hf
  | some text =>
    dsimp only at hf ⊢
    split at hf
    · rename_i htrue
      rw [if_pos htrue]
      exact hf
    · rename_i htrue
      rw [if_neg htrue]
      split at hf
      · rename_i hfalse
        rw [if_pos hfalse]
        exact hf
      · cases hf

namespace Turn

variable {s s' : Turn} {more reached : Bool} {c : Combined}

theorem kind_moveDocuments {previous : Option Nat} (hs : s.loop.strategy = .documents previous)
    (h : moveDocuments c previous s = .ok more s') : s'.loop.strategy.kind = .documents := by
  rw [moveDocuments, Action.get_bind_eq_ok] at h
  split at h
  · dsimp only at h
    rw [Action.modify_bind_eq_ok] at h
    split at h
    · obtain ⟨r, s₁, h₁, h⟩ := Action.bind_eq_ok.mp h
      obtain ⟨-, rfl⟩ := Action.pure_eq_ok.mp h
      rw [(spent_readCurrent (s := { s with feed := .documents c.next.2 }) rfl h₁).1, hs]
      rfl
    · obtain ⟨-, rfl⟩ := Action.pure_eq_ok.mp h
      rw [hs]
      rfl
  · split at h
    · obtain ⟨-, rfl⟩ := Action.pure_eq_ok.mp h
      rw [hs]
      rfl
    · split at h
      · exact (Action.failAt_eq_ok.mp h).elim
      · rw [setLoop, Action.modify_bind_eq_ok] at h
        obtain ⟨-, rfl⟩ := Action.pure_eq_ok.mp h
        rfl

theorem kind_moveRecords {previous : Option Int} (hs : s.loop.strategy = .records previous)
    (hf : s.feed = .documents c) (h : moveRecords c previous reached s = .ok more s') :
    s'.loop.strategy.kind = .records := by
  rw [moveRecords, Action.get_bind_eq_ok] at h
  have hstop : ∀ {b : Bool}, (pure b : Action Turn Bool) s = .ok more s' → s'.loop.strategy.kind = .records := by
    intro b hr
    obtain ⟨-, rfl⟩ := Action.pure_eq_ok.mp hr
    rw [hs]
    rfl
  cases hc : c.current? with
  | none =>
    simp only [hc] at h
    exact (Action.failAt_eq_ok.mp h).elim
  | some e =>
    simp only [hc] at h
    split at h
    · split at h
      · exact hstop h
      · obtain ⟨r, s₁, h₁, h⟩ := Action.bind_eq_ok.mp h
        obtain ⟨-, rfl⟩ := Action.pure_eq_ok.mp h
        rw [(spent_readCurrent hf h₁).1, hs]
        rfl
    · cases ht : e.table with
      | none =>
        simp only [ht] at h
        exact hstop h
      | some t =>
        simp only [ht] at h
        split at h
        · exact hstop h
        · split at h
          · exact (Action.failAt_eq_ok.mp h).elim
          · rw [setLoop, Action.modify_bind_eq_ok] at h
            obtain ⟨-, rfl⟩ := Action.pure_eq_ok.mp h
            rfl

/-- A loop keeps the kind of its strategy. -/
theorem kind_move (h : move s = .ok more s') : s'.loop.strategy.kind = s.loop.strategy.kind := by
  have hcounted := (moves_move h).kind
  rw [move, Action.get_bind_eq_ok] at h
  cases hs : s.loop.strategy <;> cases hf : s.feed <;> simp only [hs, hf] at h
  case counted.records =>
    rw [hs] at hcounted
    cases hs' : s'.loop.strategy <;> rw [hs'] at hcounted
    case counted => rfl
    all_goals cases hcounted
  case documents.documents => exact kind_moveDocuments hs h
  case records.documents => exact kind_moveRecords hs hf h
  all_goals exact (Action.fail_eq_ok.mp h).elim

/-- A loop that goes on is the same one, but for where it is and how often it has run. -/
structure SameLoop (l l' : Loop) : Prop where
  kind : l'.strategy.kind = l.strategy.kind
  fetch : l'.fetch = l.fetch
  max : l'.max = l.max

theorem sameLoop_next (h : next s = .ok true s') : SameLoop s.loop s'.loop := by
  obtain ⟨moved, s₁, h₁, ⟨hno, -⟩ | ⟨-, -, -, first, -, hr⟩⟩ := next_cases h
  · cases hno
  · have hk := kind_move h₁
    have hl := (moved_move h₁).loop
    rw [(rest_of_runs hr).2]
    exact ⟨hk, by rw [hl], by rw [hl]⟩

/-- A loop that moves the cursor and goes on has done so before. -/
theorem SameLoop.movesCursor {l l' : Loop} (h : SameLoop l l') (hm : l'.MovesCursor) : l.MovesCursor := by
  obtain ⟨⟨previous, hs⟩, hfetch⟩ := hm
  have hk := h.kind
  rw [hs] at hk
  exact ⟨exists_of_kind_documents hk.symm, h.fetch.symm.trans hfetch⟩

end Turn

end Loop

namespace Walk

open Stencil.Tree (Under Inner Refreshed)
open Loop (Entered)
open Loop.Turn (Continues)

variable {t t' : Tree} {docs roots rs parents : List NodeId} {root p n m q a a' : NodeId} {r : Run} {f g : Frame}
  {frames more : List Frame} {w w₀ w₁ w₂ w' : Walk} {o : Options} {l l' x : Loop} {inner outer outer' : List Loop}
  {key : String} {scan : List Position} {u : Unit} {even : Prop} {s : Setup} {progress : Progress}

theorem movesCursor_congr (hname : t'.name m = t.name n) (hattrs : (t'.node m).attrs = (t.node n).attrs)
    (h : MovesCursor t' m) : MovesCursor t n where
  name := hname.symm.trans h.name
  type := by
    have := h.type
    unfold Tree.attr? at this ⊢
    rw [← hattrs]
    exact this
  fetch := fun hf => h.fetch (Loop.flag?_congr hattrs hf)

/-- None of the loops in the body of `a` moves the cursor. -/
def Clear (t : Tree) (a : NodeId) : Prop := ∀ q, Inner t a q → q ≠ a → ¬ MovesCursor t q

theorem Clear.of_bodyFrom (h : Clear t a) (hb : BodyFrom t a t' a') : Clear t' a' := by
  intro q hq hne hm
  obtain ⟨m, hi, hma, hname, hattrs⟩ := hb q hq hne
  exact h m hi hma (movesCursor_congr hname hattrs hm)

/-- A node of the run that the walk is in is no loop that moves the cursor, if the run stands in a body with none. -/
theorem Clear.not_movesCursor (h : Clear t l.anchor) (hwf : t.WellFormed)
    (hs : Standing t root p key (inner ++ l :: outer) scan) (hp : t.parent? n = some p) : ¬ MovesCursor t n := by
  intro hm
  have hi := hs.inner_anchor
  refine h n (.step hi hp (.inr hm.name)) ?_ hm
  rintro rfl
  exact hwf.not_under_parent hp hi.under

/-! ## A loop at work -/

/-- The walk of the document of `f` runs the loop `l`, inside the loops `outer`.  None of the loops that run in it
    moves the cursor, and there is none in its body that does. -/
structure EngagedIn (t : Tree) (f : Frame) (outer : List Loop) (l : Loop) : Prop where
  loops : ∃ inner, f.loops = inner ++ l :: outer ∧ ∀ x ∈ inner, ¬ x.MovesCursor
  clear : Clear t l.anchor

theorem EngagedIn.mem (h : EngagedIn t f outer l) : l ∈ f.loops := by
  obtain ⟨inner, hloops, -⟩ := h.loops
  rw [hloops]
  exact List.mem_append_right _ List.mem_cons_self

theorem EngagedIn.of_bodyFrom (h : EngagedIn t f outer l) (hb : BodyFrom t l.anchor t' l.anchor)
    (hl : g.loops = f.loops) : EngagedIn t' g outer l :=
  ⟨hl ▸ h.loops, h.clear.of_bodyFrom hb⟩

/-- The innermost loop of the document is `l` itself, or one that runs in it. -/
theorem EngagedIn.innermost (h : EngagedIn t f outer l) (hl : f.loops = x :: outer') :
    x = l ∧ outer' = outer ∨ ¬ x.MovesCursor ∧ EngagedIn t { f with loops := outer' } outer l := by
  obtain ⟨inner, hloops, hno⟩ := h.loops
  rw [hl] at hloops
  cases inner with
  | nil => exact .inl (List.cons.inj hloops)
  | cons y inner =>
    obtain ⟨rfl, rfl⟩ := List.cons.inj hloops
    exact .inr ⟨hno x List.mem_cons_self, ⟨inner, rfl, fun y hy => hno y (List.mem_cons_of_mem _ hy)⟩, h.clear⟩

/-- One more loop runs in it. -/
theorem EngagedIn.cons (h : EngagedIn t f outer l) (hx : ¬ x.MovesCursor) (hl : g.loops = x :: f.loops) :
    EngagedIn t g outer l := by
  obtain ⟨inner, hloops, hno⟩ := h.loops
  refine ⟨⟨x :: inner, by rw [hl, hloops]; rfl, fun y hy => ?_⟩, h.clear⟩
  rcases List.mem_cons.mp hy with rfl | hy
  · exact hx
  · exact hno y hy

/-- The walk is about to visit a node in the body of the loop. -/
theorem EngagedIn.not_movesCursor (h : EngagedIn w.space.tree f outer l) (hv : Visiting w f more root rs p r n) :
    ¬ MovesCursor w.space.tree n := by
  obtain ⟨inner, hloops, -⟩ := h.loops
  have hs := hv.running.standing
  rw [hloops] at hs
  exact h.clear.not_movesCursor hv.wellFormed hs hv.parent?

/-! ## Visits -/

/-- The loops that run in a document stand on its trunk. -/
theorem Placed.inner_of_mem (h : Placed t root f) (hl : l ∈ f.loops) : Inner t root l.anchor := by
  unfold Placed at h
  cases hr : f.run with
  | some r =>
    rw [hr] at h
    obtain ⟨p, hp⟩ := h
    exact hp.standing.inner_of_mem hl
  | none =>
    rw [hr] at h
    dsimp only at h
    generalize f.loops = loops at h hl
    generalize f.scan = scan at h
    cases h with
    | ended => cases hl
    | «at» hs _ => exact hs.inner_of_mem hl

/-- A visit that changes no document that is walked. -/
theorem Visiting.engaged_of_around (h : Visiting w f more root rs p r n) (he : EngagedIn w.space.tree f outer l)
    (ha : Around (root :: rs) w.space.tree w'.space.tree) : EngagedIn w'.space.tree f outer l :=
  he.of_bodyFrom (bodyFrom_of_around h.wellFormed ha List.mem_cons_self h.isRoot
    (h.running.standing.inner_of_mem he.mem)) rfl

theorem Visiting.engaged_items (h : Visiting w f more root rs p r n) (he : EngagedIn w.space.tree f outer l)
    (hd : descend w.space.tree f.scan r.key n = .ok (t', scan)) : EngagedIn t' { f with scan } outer l := by
  have hwf := h.wellFormed
  have hi := h.running.standing.inner_of_mem he.mem
  rcases descend_ok hwf h.parent? hd with ⟨-, rfl, rfl⟩ | ⟨first, next, hf, rfl, hnext⟩
  · exact ⟨he.loops, he.clear⟩
  · rcases hnext with ⟨-, rfl⟩ | ⟨-, hm⟩
    · exact ⟨he.loops, he.clear⟩
    · exact he.of_bodyFrom (bodyFrom_of_marked hwf (hwf.live_of_under h.isRoot.live hi.under) hm) rfl

/-- The loop of `n`, a node below `p`, has been entered, and is about to be asked for its first run. -/
structure AtLoopStart (w : Walk) (f : Frame) (more : List Frame) (root p n : NodeId) (l : Loop) : Prop where
  wellFormed : w.space.tree.WellFormed
  isRoot : IsRoot w.space.tree root
  frames : w.frames = f :: more
  anchor : l.anchor = n
  count : l.count = 0
  parent : w.space.tree.parent? n = some p
  standing : Standing w.space.tree root p l.key f.loops f.scan

/-- What entering the loop of a node does to a walk. -/
theorem Visiting.entered (h : Visiting w f more root rs p r n)
    (hl : onTree (Loop.enter n r.key (w.visible f)) w = .ok x w₁) :
    AtLoopStart w₁ f more root p n x ∧ Loop.declared w.space.tree n r.key (w.visible f) = .ok x
      ∧ Entered w.space.tree n p w₁.space.tree ∧ w₁.secondary = w.secondary := by
  obtain ⟨t₁, henter, rfl⟩ := onTree_ok hl
  obtain ⟨hdecl, rfl⟩ := Loop.enter_ok henter
  obtain ⟨hcount, hkey, -, hanchor⟩ := Loop.declared_ok hdecl
  have hwf := h.wellFormed
  have hpn := h.parent?
  have hent := Loop.entered hwf hpn
  have hi := h.running.standing.inner
  have hln := (hent.live n).mpr ⟨(hwf.live_of_parent hpn).1, fun c hc hu => by
    obtain ⟨hpc, hne⟩ := Loop.parent?_of_mem_copies hwf hpn hc
    exact hne (hwf.siblings_disjoint hpc hpn hu .self)⟩
  refine ⟨⟨hent.wellFormed, ?_, h.frames, hanchor, hcount, (hent.parent? n hln).trans hpn, ?_⟩, hdecl, hent, rfl⟩
  · exact (around_of_entered hwf h.fresh h.isRoot.parent? hi hpn hent).isRoot root h.isRoot
  · rw [hkey]
    exact standing_of_entered hwf h.isRoot.live hpn hent h.running.standing

/-- What the loop says. -/
theorem AtLoopStart.turned {next : Bool} (h : AtLoopStart w f more root p n x)
    (ht : turn f x w = .ok (next, l') w') :
    ∃ s, Loop.Turn.next ⟨x, w.space.tree, w.feedOf f x, f.scan⟩ = .ok next s ∧ l' = s.loop ∧ Turned w f more s w'
      ∧ if next then Continues ⟨x, w.space.tree, w.feedOf f x, f.scan⟩ p s
        else Loop.Turn.Ends ⟨x, w.space.tree, w.feedOf f x, f.scan⟩ s := by
  obtain ⟨s, hs, rfl, rfl⟩ := turn_ok ht
  refine ⟨s, hs, rfl, turned_afterTurn h.frames (Loop.Turn.sameFeed_next hs), ?_⟩
  exact Loop.Turn.next_ok h.wellFormed (by rw [h.anchor]; exact h.parent) hs

theorem Visiting.engaged_loop (h : Visiting w f more root rs p r n) (he : EngagedIn w.space.tree f outer l)
    (hname : w.space.tree.name n = "repeat") (hl : startLoop f r.key n w = .ok u w') :
    ∃ g, w'.frames = g :: more ∧ EngagedIn w'.space.tree g outer l := by
  rw [startLoop, Action.get_bind_eq_ok] at hl
  obtain ⟨x, w₁, h₁, hl⟩ := Action.bind_eq_ok.mp hl
  obtain ⟨⟨next, x'⟩, w₂, h₂, hl⟩ := Action.bind_eq_ok.mp hl
  obtain ⟨hat, hdecl, hent, -⟩ := h.entered h₁
  obtain ⟨S, hnext, rfl, hturned, hstep⟩ := hat.turned h₂
  have hla := hat.wellFormed.live_of_under hat.isRoot.live (hat.standing.inner_of_mem he.mem).under
  have he₁ : EngagedIn w₁.space.tree f outer l := he.of_bodyFrom (bodyFrom_of_entered hent hla) rfl
  cases next with
  | true =>
    have hw := modifyFrame_eq_ok.mp hl
    simp only [hturned.frames] at hw
    subst hw
    refine ⟨_, rfl, EngagedIn.cons (f := f) ?_ (fun hm => ?_) rfl⟩
    · show EngagedIn w₂.space.tree f outer l
      rw [hturned.tree, (Continues.firstRun hstep hat.count).1]
      exact he₁
    · exact he.not_movesCursor h (movesCursor_of_declared hname hdecl ((Loop.Turn.sameLoop_next hnext).movesCursor hm))
  | false =>
    obtain ⟨-, rfl⟩ := Action.pure_eq_ok.mp hl
    refine ⟨_, hturned.frames, ?_⟩
    rw [hturned.tree, Loop.Turn.Ends.tree hstep]
    exact ⟨he₁.loops, he₁.clear⟩

/-- Behind a visit in the body of a loop, the loop runs as before. -/
theorem Visiting.engaged {v : Visit} (h : Visiting w f more root rs p r n) (he : EngagedIn w.space.tree f outer l)
    (hrs : ∀ r ∈ rs, IsRoot w.space.tree r) (hdocs : ∀ d ∈ documents w, IsRoot w.space.tree d)
    (hsees : f.seesSecondary = true → rs = [] ∧ root ∉ documents w)
    (hv : Walk.visit o f r.key n w = .ok v w') :
    ∃ g, w'.frames = g :: more ∧ EngagedIn w'.space.tree g outer l := by
  rw [Walk.visit, Action.get_bind_eq_ok] at hv
  obtain ⟨tag, htag, hv⟩ := Action.ofExcept_bind_eq_ok.mp hv
  have hname := tagOf_ok htag
  have hwf := h.wellFormed
  cases tag with
  | item =>
    obtain ⟨_, w₁, h₁, hv⟩ := Action.bind_eq_ok.mp hv
    obtain ⟨_, w₂, h₂, hv⟩ := Action.bind_eq_ok.mp hv
    obtain ⟨-, rfl⟩ := Action.pure_eq_ok.mp hv
    obtain ⟨value, rfl⟩ := fillItem_ok h₁
    have hr₁ : Refreshed w.space.tree (putValue w.space.tree n value) :=
      refreshed_putValue hwf h.parent? (by rw [hname]; decide)
    rcases onSink_ok h₂ with ⟨-, rfl⟩ | ⟨s, j, -, hj, rfl⟩
    · exact ⟨f, h.frames, h.engaged_of_around he ((quiet_of_refreshed hwf hr₁).around hwf)⟩
    · have hput := Job.put_setData hr₁.wellFormed hj
      exact ⟨f, h.frames, h.engaged_of_around he ((quiet_of_refreshed hwf (hr₁.trans hput.tree)).around hwf)⟩
  | items =>
    obtain ⟨⟨t, scan⟩, hd, hv⟩ := Action.ofExcept_bind_eq_ok.mp hv
    obtain ⟨_, w₁, h₁, hv⟩ := Action.bind_eq_ok.mp hv
    obtain ⟨_, w₂, h₂, hv⟩ := Action.bind_eq_ok.mp hv
    obtain ⟨-, rfl⟩ := Action.pure_eq_ok.mp hv
    rw [modifyTree_eq_ok.mp h₁] at h₂
    have hw := modifyFrame_eq_ok.mp h₂
    simp only [h.frames] at hw
    refine ⟨{ f with scan }, by rw [hw], ?_⟩
    rw [hw]
    exact h.engaged_items he hd
  | loop =>
    obtain ⟨_, w₁, h₁, hv⟩ := Action.bind_eq_ok.mp hv
    obtain ⟨-, rfl⟩ := Action.pure_eq_ok.mp hv
    exact h.engaged_loop he hname h₁
  | document =>
    obtain ⟨ha, hrest, -⟩ := h.around_document hrs hdocs hsees hv
    exact ⟨f, by rw [hrest]; exact h.frames, h.engaged_of_around he ha⟩
  | writer =>
    rw [visitWriter, Action.get_bind_eq_ok] at hv
    cases hs : w.sink with
    | none =>
      simp only [hs] at hv
      obtain ⟨_, w₁, h₁, hv⟩ := Action.bind_eq_ok.mp hv
      obtain ⟨-, rfl⟩ := Action.pure_eq_ok.mp hv
      have ho := sinkOpened hwf (h.atWriter hname) h₁
      exact ⟨f, by rw [ho.rest]; exact h.frames, h.engaged_of_around he (ho.step.quiet.around hwf)⟩
    | some s =>
      simp only [hs] at hv
      obtain ⟨s', w₁, h₁, hv⟩ := Action.bind_eq_ok.mp hv
      have ht := taken_takeSink hwf h₁
      rw [Action.modify_bind_eq_ok] at hv
      obtain ⟨-, rfl⟩ := Action.pure_eq_ok.mp hv
      refine ⟨f, ?_, h.engaged_of_around he ((quiet_of_refreshed hwf ht.tree).around hwf)⟩
      show w₁.frames = f :: more
      rw [ht.rest]
      exact h.frames
  | nop =>
    obtain ⟨-, rfl⟩ := Action.pure_eq_ok.mp hv
    exact ⟨f, h.frames, he⟩

/-! ## The end of a run -/

section

variable (hrun : RunEnded w f more root p key parents) (he : EngagedIn w.space.tree f outer l)
  (hask : Asking o w f more root p q x outer' w₁)

include hrun he

/-- What waits is written up. -/
theorem EngagedIn.of_writtenUp (hup : WrittenUp w w₁) : EngagedIn w₁.space.tree f outer l :=
  he.of_bodyFrom (bodyFrom_of_around hrun.wellFormed ((quiet_of_refreshed hrun.wellFormed hup.tree).around
    hrun.wellFormed) (List.mem_singleton_self root) hrun.isRoot (hrun.standing.inner_of_mem he.mem)) rfl

theorem EngagedIn.children_of_writtenUp (hup : WrittenUp w w₁) :
    w₁.space.tree.children l.anchor = w.space.tree.children l.anchor :=
  (((quiet_of_refreshed hrun.wellFormed hup.tree).around hrun.wellFormed).trunk root (List.mem_singleton_self root)
    hrun.isRoot).children (hrun.standing.inner_of_mem he.mem)

include hask

/-- A loop that is asked ends: it is the loop itself, or one that ran in it. -/
theorem EngagedIn.ended {S : Loop.Turn} (ht : Turned w₁ f more S w₂)
    (hends : Loop.Turn.Ends ⟨x, w₁.space.tree, w₁.feedOf f x, f.scan⟩ S) (hd : dropLoop outer' w₂ = .ok u w') :
    x = l ∧ outer' = outer
      ∨ ¬ x.MovesCursor ∧ EngagedIn w'.space.tree { f with scan := S.scan, loops := outer' } outer l := by
  have htree : w'.space.tree = w₁.space.tree := by
    rw [dropLoop_ok ht hd]
    exact ht.tree.trans hends.tree
  rw [htree]
  refine ((he.of_writtenUp hrun hask.up).innermost hask.atEnd.loops).imp_right fun ⟨hx, hin⟩ => ⟨hx, ?_⟩
  exact ⟨hin.loops, hin.clear⟩

/-- A loop that is asked goes on: it is the loop itself, or one that runs in it. -/
theorem EngagedIn.goesOn {S : Loop.Turn} (ht : turn f x w₁ = .ok (true, S.loop) w₂)
    (hc : Continues ⟨x, w₁.space.tree, w₁.feedOf f x, f.scan⟩ q S) :
    x = l ∧ outer' = outer
      ∨ ¬ x.MovesCursor ∧ EngagedIn S.tree { f with scan := S.scan, loops := S.loop :: outer' } outer l := by
  have hat := hask.atEnd
  refine ((he.of_writtenUp hrun hask.up).innermost hat.loops).imp_right fun ⟨hx, hin⟩ => ⟨hx, ?_⟩
  -- the loop stands on the trunk, and so it lives
  have hi : Inner w₁.space.tree root l.anchor := hat.standing.inner_of_mem hin.mem
  have hl := hat.wellFormed.live_of_under hat.isRoot.live hi.under
  have hpa : w₁.space.tree.parent? x.anchor = some q := by rw [hat.anchor, hat.parent]
  have hin' : EngagedIn S.tree { f with loops := outer' } outer l :=
    hin.of_bodyFrom (bodyFrom_of_advanced hat.wellFormed hl hpa hc.advanced) rfl
  refine hin'.cons (fun hm => hx ?_) rfl
  obtain ⟨S', hS', hloop, -⟩ := turn_ok ht
  exact (Loop.Turn.sameLoop_next hS').movesCursor (hloop ▸ hm)

end

/-- A turn of a loop that does not move the cursor, in the main document. -/
theorem Asking.onward {next : Bool} (h : Asking o w f more root p q x outer' w₁) (hmain : f.source = .main)
    (hx : ¬ x.MovesCursor) (ht : turn f x w₁ = .ok (next, l') w₂) : Onward w False w₂ := by
  have hcur : OnCurrent w₁ f := fun i hi => by
    rw [hmain] at hi
    cases hi
  exact (Onward.of_eq h.secondary).trans ((onward_turn hcur ht).mono fun hm => hx hm.2)

/-- Where the loops around a run are asked without the loop itself, it runs as before, and the cursor stays. -/
theorem RunEnded.engaged (hrun : RunEnded w f more root p key parents) (hmain : f.source = .main)
    (he : EngagedIn w.space.tree f outer l)
    (hno : ∀ g x w₁, Asks o w parents x.anchor w₁ → w₁.frames = g :: more → g.loops ≠ x :: outer)
    (h : closeLoops o parents w = .ok u w') :
    (∃ g, w'.frames = g :: more ∧ EngagedIn w'.space.tree g outer l) ∧ Onward w False w' := by
  -- a loop that is asked is not the one that `outer` is around
  have hother : ∀ {w₀ w₁ g p q x outer' parents'}, Asking o w₀ g more root p q x outer' w₁ →
      (∀ a w', Asks o w₀ (p :: parents') a w' → Asks o w parents a w') → outer' ≠ outer := by
    intro w₀ w₁ g p q x outer' parents' hask hasks heq
    have hat := hask.atEnd
    refine hno g x w₁ (hasks _ _ ?_) hat.frames (heq ▸ hat.loops)
    rw [hat.anchor]
    exact .here hask.name hask.level
  refine hrun.closeLoops_induct (P := fun w' g _ ps => EngagedIn w'.space.tree g outer l ∧ Onward w False w'
      ∧ SameFrame f g ∧ ∀ a w₁, Asks o w' ps a w₁ → Asks o w parents a w₁)
    (Q := fun w' => (∃ g, w'.frames = g :: more ∧ EngagedIn w'.space.tree g outer l) ∧ Onward w False w')
    ⟨he, .of_eq rfl, .refl f, fun _ _ ha => ha⟩ h ?_ ?_ ?_ ?_
  · intro w₀ g p q key ps x outer' w₁ S w₂ w₃ hrun ⟨he, hon, hsame, hasks⟩ hask hend
    rcases he.ended hrun hask hend.turned hend.ends hend.dropped with ⟨-, heq⟩ | ⟨hx, he'⟩
    · exact absurd heq (hother hask hasks)
    · have hon₂ := hon.trans (hask.onward (hsame.source.trans hmain) hx hend.turn)
      refine ⟨he', hon₂.trans (.of_eq ?_), hsame.trans ⟨rfl, rfl, rfl⟩, fun a w' ha => hasks a w' ?_⟩
      · rw [dropLoop_ok hend.turned hend.dropped]
      · exact .outward hask.name hask.level hask.atEnd.frames hask.atEnd.loops hend.turn hend.dropped hend.cascades ha
  · intro w₀ g p key ps hrun ⟨he, hon, _⟩ _
    exact ⟨⟨g, hrun.frames, he⟩, hon⟩
  · intro w₀ g p q key ps x outer' w₁ S w₂ hrun ⟨he, hon, hsame, hasks⟩ hask ht hturned hc
    rcases he.goesOn hrun hask ht hc with ⟨-, heq⟩ | ⟨hx, he'⟩
    · exact absurd heq (hother hask hasks)
    · refine ⟨⟨_, rfl, ?_⟩, (hon.trans (hask.onward (hsame.source.trans hmain) hx ht)).trans (.of_eq rfl)⟩
      show EngagedIn w₂.space.tree _ outer l
      rw [hturned.tree]
      exact he'
  · intro w₀ g p q key ps x outer' w₁ S w₂ w₃ hrun ⟨he, hon, hsame, hasks⟩ hask ht hturned hends hd _
    rcases he.ended hrun hask hturned hends hd with ⟨-, heq⟩ | ⟨hx, he'⟩
    · exact absurd heq (hother hask hasks)
    · have hw := dropLoop_ok hturned hd
      refine ⟨⟨_, by rw [hw], he'⟩, (hon.trans (hask.onward (hsame.source.trans hmain) hx ht)).trans (.of_eq ?_)⟩
      rw [hw]

/-- Until the loop itself is asked, it runs as before, and the cursor stays. -/
theorem RunEnded.engaged_asks (hrun : RunEnded w f more root p key parents) (hmain : f.source = .main)
    (he : EngagedIn w.space.tree f outer l) (hbody : w.space.tree.children l.anchor ≠ [])
    (h : Asks o w parents a w₁) (hf : w₁.frames = g :: more) (hl : g.loops = x :: outer) :
    x = l ∧ EngagedIn w₁.space.tree g outer l ∧ w₁.space.tree.children l.anchor ≠ [] ∧ Onward w False w₁
      ∧ SameFrame f g ∧ ∃ q, AtLoopEnd w₁ g more root a q l outer := by
  let P : Walk → Frame → NodeId → List NodeId → Prop := fun w' g _ _ => SameFrame f g
    ∧ (EngagedIn w'.space.tree g outer l ∧ w'.space.tree.children l.anchor ≠ [] ∧ Onward w False w'
      ∨ g.loops.length ≤ outer.length)
  have hstart : P w f p parents := ⟨.refl f, .inl ⟨he, hbody, .of_eq rfl⟩⟩
  obtain ⟨w₀, g', key', ps, hrun', ⟨hsame, hP⟩, hf', hask⟩ :=
    hrun.asks_induct hstart h fun {w₀ g p q key ps x outer' w₁ S w₂ w₃} hrun ⟨hsame, hP⟩ hask hend => by
      refine ⟨hsame.trans ⟨rfl, rfl, rfl⟩, ?_⟩
      rcases hP with ⟨he, hbody, hon⟩ | hlt
      · rcases he.ended hrun hask hend.turned hend.ends hend.dropped with ⟨-, heq⟩ | ⟨hx, he'⟩
        · exact .inr (Nat.le_of_eq (congrArg List.length heq))
        · have hw := dropLoop_ok hend.turned hend.dropped
          refine .inl ⟨he', ?_, (hon.trans (hask.onward (hsame.source.trans hmain) hx hend.turn)).trans (.of_eq ?_)⟩
          · rw [hw]
            show w₂.space.tree.children l.anchor ≠ []
            rw [hend.turned.tree, hend.ends.tree, he.children_of_writtenUp hrun hask.up]
            exact hbody
          · rw [hw]
      · right
        rw [hask.atEnd.loops, List.length_cons] at hlt
        exact Nat.le_of_succ_le hlt
  rw [hf] at hf'
  obtain ⟨rfl, -⟩ := List.cons.inj hf'
  obtain ⟨q, hask⟩ := hask x outer hl
  rcases hP with ⟨he', hbody', hon⟩ | hlt
  · have he₁ := he'.of_writtenUp hrun' hask.up
    rcases he₁.innermost hl with ⟨rfl, -⟩ | ⟨-, hin⟩
    · refine ⟨rfl, he₁, ?_, hon.trans (.of_eq hask.secondary), hsame, q, hask.atEnd⟩
      rw [he'.children_of_writtenUp hrun' hask.up]
      exact hbody'
    · -- no loop runs inside itself
      obtain ⟨inner, hin, -⟩ := hin.loops
      have hlen := congrArg List.length hin
      simp only [List.length_append, List.length_cons] at hlen
      omega
  · rw [hl, List.length_cons] at hlt
    omega

/-! ## Rounds -/

/-- The main document runs the loop `l`, inside the loops `outer`; it may have asked for others, that are walked
    inside it. -/
def Engaged (w : Walk) (outer : List Loop) (l : Loop) : Prop :=
  ∃ f, w.frames.getLast? = some f ∧ f.seesSecondary = true ∧ EngagedIn w.space.tree f outer l

/-- The innermost document is the main one, or it does not see the cursor. -/
theorem Engaged.cases (h : Engaged w outer l) (hs : Stack w.space.tree docs w.frames roots)
    (hf : w.frames = f :: more) :
    more = [] ∧ f.seesSecondary = true ∧ f.source = .main ∧ EngagedIn w.space.tree f outer l
      ∨ ¬ f.seesSecondary = true ∧ ∃ f' ∈ more, more.getLast? = some f' ∧ f'.seesSecondary = true
        ∧ EngagedIn w.space.tree f' outer l := by
  obtain ⟨f', hlast, hsees, he⟩ := h
  rw [hf] at hlast hs
  obtain ⟨root, rs, rfl⟩ := hs.roots_cons
  cases more with
  | nil =>
    cases hlast
    exact .inl ⟨rfl, hsees, hs.source_of_sees hsees, he⟩
  | cons g more =>
    rw [List.getLast?_cons_cons] at hlast
    refine .inr ⟨fun hno => ?_, f', List.mem_of_getLast? hlast, hlast, hsees, he⟩
    cases (hs.main_of_sees hno).1

/-- Documents whose walks notice nothing run their loops as before. -/
theorem Stack.engaged_of_around (h : Stack t docs frames roots) (hwf : t.WellFormed) (ha : Around roots t t')
    (hf : f ∈ frames) (he : EngagedIn t f outer l) : EngagedIn t' f outer l := by
  obtain ⟨r, hm, -, hroot, hp⟩ := h.exists_root hf
  exact he.of_bodyFrom (bodyFrom_of_around hwf ha hm hroot (hp.inner_of_mem he.mem)) rfl

theorem Engaged.of_around (h : Engaged w outer l) (hc : Coherent even w roots)
    (ha : Around roots w.space.tree w'.space.tree) (hf : w'.frames.getLast? = w.frames.getLast?) :
    Engaged w' outer l := by
  obtain ⟨f, hlast, hsees, he⟩ := h
  exact ⟨f, hf.trans hlast, hsees, hc.stack.engaged_of_around hc.wellFormed ha (List.mem_of_getLast? hlast) he⟩

theorem Coherent.engaged_rotate (hc : Coherent even w roots) (h : Engaged w outer l)
    (hr : Walk.rotate o w = .ok u w') : Engaged w' outer l := by
  rcases hc.rotate_ok hr with ⟨rfl, -⟩ | ⟨n, r, f, more, -, ho⟩
  · exact h
  · exact h.of_around hc (ho.step.quiet.around hc.wellFormed) (by rw [ho.rest])

/-- The main document cannot end while a loop runs in it. -/
theorem Coherent.engaged_leave (hc : Coherent even w (root :: rs)) (h : Engaged w outer l)
    (hf : w.frames = f :: more) (ht : takeRun f = none) (hrot : w.rotation = none)
    (hl : Walk.leave o w = .ok u w') : Engaged w' outer l ∧ w'.secondary = w.secondary := by
  have hstack := hc.stack
  rcases h.cases hstack hf with ⟨-, -, -, he⟩ | ⟨-, f', hm, hlast, hsees, he⟩
  · rw [hf] at hstack
    have hmem := he.mem
    rw [hstack.head.2.1.ended ht] at hmem
    cases hmem
  rw [hf] at hstack
  obtain ⟨hroot, -, hfresh, howned⟩ := hstack.head
  obtain ⟨w₁, h₁, hd, rfl⟩ := leave_ok hc.wellFormed hf hl
  have hq := quiet_of_refreshed hc.wellFormed hd.tree
  have he₁ := hstack.tail.engaged_of_around hc.wellFormed (hq.around hc.wellFormed) hm he
  have hsec : w₁.secondary = w.secondary := by rw [hd.rest]
  refine ⟨⟨f', hlast, hsees, ?_⟩, hsec⟩
  cases ho : f.owned with
  | none => exact he₁
  | some r' =>
    obtain ⟨rfl, -⟩ := howned r' ho
    have hc₁ := hc.left hf ht hrot h₁
    obtain ⟨r, hr, -, hroot', hp⟩ := hc₁.stack.exists_root hm
    exact he₁.of_bodyFrom (bodyFrom_of_release hq.wellFormed hroot' (hq.isRoot hroot) (fun he => hfresh (he ▸ hr))
      (hp.inner_of_mem he.mem)) rfl

/-- Behind a visit the run goes on, or the walk goes on elsewhere; the loops run as before. -/
theorem frames_of_resume (hf : w.frames = f :: more) (h : resume r n w = .ok u w') :
    w'.space = w.space ∧ ∃ g, w'.frames = g :: more ∧ g.loops = f.loops ∧ g.seesSecondary = f.seesSecondary := by
  have hw := Action.modify_eq_ok.mp h
  simp only [hf] at hw
  subst hw
  split
  · exact ⟨rfl, _, rfl, rfl, rfl⟩
  · exact ⟨rfl, f, hf, rfl, rfl⟩

theorem kept_of_resume (h : resume r n w = .ok u w') : w'.space = w.space ∧ w'.sink = w.sink := by
  rw [Action.modify_eq_ok.mp h]
  split
  · exact ⟨rfl, rfl⟩
  · split <;> exact ⟨rfl, rfl⟩

/-- What a round does in which the walk comes to a field while a sink is open. -/
theorem TakesUp.round_item {out : Sink} (h : TakesUp o w g r w₁) (hn : r.next = some n)
    (hname : w₁.space.tree.name n = "item") (hout : w₁.sink = some out) (hr : Walk.round o w = .ok progress w') :
    (∃ j, Job.setData o w₁.files n
        ⟨{ w₁.space with tree := putValue w₁.space.tree n (w₁.recordValue g (w₁.space.tree.keyPath r.key n) n) }, out⟩
          = .ok () j ∧ w'.space = j.space ∧ w'.sink = some j.sink)
      ∧ ∃ more g', w₁.frames = g :: more ∧ w'.frames = g' :: more ∧ g'.loops = g.loops := by
  obtain ⟨more, hf⟩ : ∃ more, w₁.frames = g :: more := by
    obtain ⟨w₂, f, more, -, -, -, rfl⟩ := h
    exact ⟨more, rfl⟩
  rw [round_of_takesUp h, hn] at hr
  obtain ⟨v, w₂, h₂, hrest⟩ := Action.bind_eq_ok.mp hr
  obtain ⟨_, w₃, h₃, hlast⟩ := Action.bind_eq_ok.mp hrest
  have htag : tagOf w₁.space.tree n = .ok .item := by
    unfold tagOf
    rw [hname]
    rfl
  have hv := Action.locating_eq_ok.mp h₂
  rw [Walk.visit, Action.get_bind_eq_ok] at hv
  obtain ⟨tag, htag', hv⟩ := Action.ofExcept_bind_eq_ok.mp hv
  cases htag.symm.trans htag'
  obtain ⟨_, w₄, h₄, hv⟩ := Action.bind_eq_ok.mp hv
  obtain ⟨_, w₅, h₅, hv⟩ := Action.bind_eq_ok.mp hv
  obtain ⟨rfl, rfl⟩ := Action.pure_eq_ok.mp hv
  obtain ⟨-, rfl⟩ := Action.pure_eq_ok.mp hlast
  rw [fillItem, Action.get_bind_eq_ok] at h₄
  rw [modifyTree_eq_ok.mp h₄] at h₅
  obtain ⟨hspace, hsink⟩ := kept_of_resume h₃
  rcases onSink_ok h₅ with ⟨hnone, -⟩ | ⟨out', j, hout', hj, hw⟩
  · rw [show w₁.sink = none from hnone] at hout
    cases hout
  · cases hout.symm.trans hout'
    have hf₅ : w₅.frames = g :: more := by
      rw [hw]
      exact hf
    obtain ⟨-, g', hg', hloops, -⟩ := frames_of_resume hf₅ h₃
    subst hw
    exact ⟨⟨j, hj, hspace, hsink⟩, more, g', hf, hg', hloops⟩

theorem Coherent.engaged_advance (hc : Coherent even w (root :: rs)) (hcur : OnCurrent w f)
    (h : Engaged w outer l) (hf : w.frames = f :: more) (ht : takeRun f = some (r, g)) (hrot : w.rotation = none)
    (hn : r.next = some n) (ha : Walk.advance o g r n { w with frames := g :: more } = .ok progress w') :
    Engaged w' outer l ∧ w'.secondary.cursor = w.secondary.cursor := by
  obtain ⟨v, w₁, h₁, ha⟩ := Action.bind_eq_ok.mp ha
  obtain ⟨_, w₂, h₂, ha⟩ := Action.bind_eq_ok.mp ha
  have hv := Action.locating_eq_ok.mp h₁
  obtain ⟨hsame, hloops, -⟩ := hc.visiting hf ht
  obtain ⟨hon, -⟩ := hc.onward_visit hcur hf ht hn hv
  obtain ⟨p, hvisited, -⟩ := hc.visited hf ht hrot hn hv
  obtain ⟨hc₂, -, hfollows⟩ := hc.resumed hf ht hrot hn hv h₂
  have hsec₂ := secondary_resume h₂
  -- behind the visit
  have hbehind : Engaged w₂ outer l ∧ w₂.secondary.cursor = w.secondary.cursor := by
    rw [hsec₂]
    have hstack := hc.stack
    rcases h.cases hstack hf with ⟨rfl, hsees, -, he⟩ | ⟨hnot, f', hm, hlast, hsees, he⟩
    · obtain ⟨p, hvisiting, hrs, hmain⟩ := hc.aboutToVisit hf ht hn
      have he' : EngagedIn ({ w with frames := [g] } : Walk).space.tree g outer l := ⟨hloops ▸ he.loops, he.clear⟩
      obtain ⟨g₁, hg₁, he₁⟩ := hvisiting.engaged he' hrs hc.docs hmain hv
      obtain ⟨g₁', hg₁', hsame₁, -⟩ := hvisited.frame
      obtain ⟨rfl, -⟩ := List.cons.inj (hg₁.symm.trans hg₁')
      obtain ⟨hspace, g₂, hg₂, hloops₂, hsees₂⟩ := frames_of_resume hg₁ h₂
      refine ⟨⟨g₂, by rw [hg₂]; rfl, ?_, ?_⟩, hon.cursor fun hm => he'.not_movesCursor hvisiting hm.2⟩
      · rw [hsees₂, hsame₁.sees, hsame.sees, hsees]
      · rw [hspace]
        exact ⟨hloops₂ ▸ he₁.loops, he₁.clear⟩
    · rw [hf] at hstack
      obtain ⟨g₁, hg₁, -⟩ := hvisited.frame
      obtain ⟨hspace, g₂, hg₂, -⟩ := frames_of_resume hg₁ h₂
      refine ⟨⟨f', ?_, hsees, ?_⟩, hon.cursor fun hm => hnot hm.1⟩
      · rw [hg₂, ← hlast]
        obtain ⟨x, xs, rfl⟩ := List.exists_cons_of_ne_nil (List.ne_nil_of_mem hm)
        exact List.getLast?_cons_cons
      · rw [hspace]
        exact hstack.tail.engaged_of_around hc.wellFormed hvisited.around hm he
  cases hfollows with
  | done _ =>
    obtain ⟨-, rfl⟩ := Action.pure_eq_ok.mp ha
    exact hbehind
  | yield _ _ _ =>
    obtain ⟨-, rfl⟩ := Action.pure_eq_ok.mp ha
    exact hbehind
  | @enter e _ he =>
    obtain ⟨_, w₃, h₃, ha⟩ := Action.bind_eq_ok.mp ha
    obtain ⟨-, rfl⟩ := Action.pure_eq_ok.mp ha
    have hent : EnteredDocument w₂ (root :: rs) e w₃ := enteredDocument hc₂.wellFormed he.isRoot he.fresh h₃
    obtain ⟨g₃, hg₃, -⟩ := hent.frame
    obtain ⟨f', hlast, -⟩ := id hbehind.1
    refine ⟨hbehind.1.of_around hc₂ hent.around ?_, (congrArg Combined.cursor (secondary_enter h₃)).trans hbehind.2⟩
    rw [hg₃]
    obtain ⟨x, xs, hx⟩ := List.exists_cons_of_ne_nil (List.ne_nil_of_mem (List.mem_of_getLast? hlast))
    rw [hx]
    exact List.getLast?_cons_cons

/-! ## The loop is asked -/

/-- In the round behind the state `w`, the loop `l` of the main document is asked for one more run; it runs directly
    inside the loops `outer`.  It is asked in the state `w₁`, whose frame is `f`. -/
def AsksAgain (o : Options) (w : Walk) (outer : List Loop) (f : Frame) (l : Loop) (w₁ : Walk) : Prop :=
  ∃ g r w₀, TakesUp o w g r w₀ ∧ r.next = none ∧ Asks o w₀ (w₀.space.tree.ancestors r.first) l.anchor w₁
    ∧ w₁.frames = [f] ∧ f.loops = l :: outer

/-- In the round behind the state `w`, the walk comes to the loop of `n` in the document of the frame `f`, and enters
    it as `l`; it is about to ask it for its first run in the state `w₁`. -/
def AsksFirst (o : Options) (w : Walk) (n : NodeId) (f : Frame) (l : Loop) (w₁ : Walk) : Prop :=
  ∃ r w₀, TakesUp o w f r w₀ ∧ r.next = some n ∧ w₀.space.tree.name n = "repeat"
    ∧ onTree (Loop.enter n r.key (w₀.visible f)) w₀ = .ok l w₁

/-- In a round that does not ask the loop, it runs on, and the cursor stays. -/
theorem Coherent.engaged_round (hc : Coherent even w roots) (ho : Ordered s w) (h : Engaged w outer l)
    (hno : ∀ f x w₁, ¬ AsksAgain o w outer f x w₁) (hr : Walk.round o w = .ok progress w') :
    Engaged w' outer l ∧ w'.secondary.cursor = w.secondary.cursor := by
  obtain ⟨w₁, h₁, hr⟩ := round_ok hr
  obtain ⟨hc₁, hframes, hrot⟩ := hc.rotate h₁
  have he₁ := hc.engaged_rotate h h₁
  have ho₁ : Ordered s w₁ := ho.of_eq (hc.secondary_rotate h₁) fun g hg => ⟨g, hframes ▸ hg, rfl⟩
  rw [← hc.secondary_rotate h₁]
  rcases hr with ⟨hf, -⟩ | ⟨f, more, hf, hr⟩
  · obtain ⟨f, hlast, -⟩ := he₁
    rw [hf] at hlast
    cases hlast
  have hstack := hc₁.stack
  have hstack' := hstack
  rw [hf] at hstack'
  obtain ⟨root, rs, rfl⟩ := hstack'.roots_cons
  have hcur : OnCurrent w₁ f := ho₁.current f (by rw [hf]; exact List.mem_cons_self)
  rcases hr with ⟨ht, -, hr⟩ | ⟨r, g, ht, ⟨n, hn, hr⟩ | ⟨hn, -, hr⟩⟩
  · obtain ⟨he, hsec⟩ := hc₁.engaged_leave he₁ hf ht hrot hr
    exact ⟨he, congrArg Combined.cursor hsec⟩
  · exact hc₁.engaged_advance hcur he₁ hf ht hrot hn hr
  · obtain ⟨hsame, hloops, -⟩ := hc₁.visiting hf ht
    obtain ⟨p, hended⟩ := hc₁.runEnded hf ht
    rcases he₁.cases hstack hf with ⟨rfl, hsees, hmain, he⟩ | ⟨hnot, f', hm, hlast, hsees, he⟩
    · have hasked := asked_closeLoops hended hstack'.head.2.2.1 hr
      have heg : EngagedIn w₁.space.tree g outer l := ⟨hloops ▸ he.loops, he.clear⟩
      obtain ⟨⟨g', hg', he'⟩, hon⟩ := hended.engaged (hsame.source.trans hmain) heg
        (fun f' x w₂ hasks hf' hl => hno f' x w₂ ⟨g, r, _, ⟨w₁, f, [], h₁, hf, ht, rfl⟩, hn, hasks, hf', hl⟩) hr
      obtain ⟨g'', hg'', hsame', -⟩ := hasked.frame
      obtain ⟨rfl, -⟩ := List.cons.inj (hg'.symm.trans hg'')
      exact ⟨⟨g', by rw [hg']; rfl, (hsame'.sees.trans hsame.sees).trans hsees, he'⟩, hon.cursor id⟩
    · have hasked := asked_closeLoops hended hstack'.head.2.2.1 hr
      obtain ⟨g', hg', -⟩ := hasked.frame
      refine ⟨⟨f', ?_, hsees, hstack'.tail.engaged_of_around hc₁.wellFormed hasked.around hm he⟩,
        (hc₁.onward_closeLoops hcur hf ht hr).cursor hnot⟩
      rw [hg', ← hlast]
      obtain ⟨x, xs, rfl⟩ := List.exists_cons_of_ne_nil (List.ne_nil_of_mem hm)
      exact List.getLast?_cons_cons

/-- A node below which something stands has a child. -/
theorem children_ne_nil_of_inner (hwf : t.WellFormed) (hi : Inner t a p) (hp : t.parent? n = some p) :
    t.children a ≠ [] := by
  induction hi generalizing n with
  | root => exact List.ne_nil_of_mem (hwf.mem_children.mpr hp)
  | step _ hpn _ ih => exact ih hpn

/-- In a round that asks the loop, it is the loop that has run on, and up to then the cursor stays. -/
theorem Coherent.engaged_asks (hc : Coherent even w roots) (h : Engaged w outer l)
    (ha : AsksAgain o w outer f x w₁) :
    x = l ∧ EngagedIn w₁.space.tree f outer l ∧ w₁.space.tree.children l.anchor ≠ [] ∧ Onward w False w₁
      ∧ f.seesSecondary = true ∧ ∃ root q, AtLoopEnd w₁ f [] root l.anchor q l outer := by
  obtain ⟨g, r, w₀, ⟨w₂, f₂, more, hrot, hf₂, htake, rfl⟩, -, hasks, hf, hl⟩ := ha
  obtain ⟨hc₂, -, -⟩ := hc.rotate hrot
  have he₂ := hc.engaged_rotate h hrot
  have hstack := hc₂.stack
  have hstack' := hstack
  rw [hf₂] at hstack'
  obtain ⟨root, rs, rfl⟩ := hstack'.roots_cons
  obtain ⟨hsame, hloops, p, hrunning, -⟩ := hc₂.visiting hf₂ htake
  obtain ⟨_, hended⟩ := hc₂.runEnded hf₂ htake
  rcases he₂.cases hstack hf₂ with ⟨rfl, hsees, hmain, he⟩ | ⟨-, f', hm, -⟩
  · -- the run that has ended stands in the body of the loop
    have hbody : w₂.space.tree.children l.anchor ≠ [] := by
      obtain ⟨inner, hinner, -⟩ := he.loops
      have hs := hrunning.standing
      rw [hloops, hinner] at hs
      exact children_ne_nil_of_inner hc₂.wellFormed hs.inner_anchor hrunning.first
    have heg : EngagedIn w₂.space.tree g outer l := ⟨hloops ▸ he.loops, he.clear⟩
    obtain ⟨rfl, he', hbody', hon, hsame', q, hat⟩ :=
      hended.engaged_asks (hsame.source.trans hmain) heg hbody hasks hf hl
    have hat' : AtLoopEnd w₁ f [] root x.anchor q x outer := hat
    refine ⟨rfl, he', hbody', (Onward.of_eq (hc.secondary_rotate hrot)).trans ⟨hon.documents, hon.cursor⟩, ?_,
      root, q, hat'⟩
    exact (hsame'.sees.trans hsame.sees).trans hsees
  · -- the documents around the innermost one are walked on after it
    obtain ⟨_, g', _, _, -, -, hg', -⟩ := hended.asks_induct (P := fun _ _ _ _ => True) trivial hasks
      fun _ _ _ _ => trivial
    rw [hf] at hg'
    obtain ⟨-, rfl⟩ := List.cons.inj hg'
    cases hm

/-- What a round does in which a loop goes on. -/
theorem AtLoopEnd.round_again (hat : AtLoopEnd w₁ f [] root a q l outer) (ha : AsksAgain o w outer f l w₁)
    (ht : turn f l w₁ = .ok (true, l') w₂) (hr : Walk.round o w = .ok progress w') :
    ∃ S, l' = S.loop ∧ Continues ⟨l, w₁.space.tree, w₁.feedOf f l, f.scan⟩ q S ∧ w₂.space.tree = S.tree
      ∧ w' = { w₂ with frames := [{ f with scan := S.scan, loops := S.loop :: outer }] } := by
  obtain ⟨S, rfl, hturned, hstep⟩ := hat.turned ht
  obtain ⟨g, r, w₀, htakes, hn, hasks, hf, hl⟩ := ha
  rw [round_of_takesUp htakes, hn] at hr
  obtain ⟨_, w₃, h₃, hr⟩ := Action.bind_eq_ok.mp hr
  obtain ⟨-, rfl⟩ := Action.pure_eq_ok.mp hr
  rw [closeLoops_of_asks hasks hf hl ht] at h₃
  have hw := modifyFrame_eq_ok.mp h₃
  simp only [hturned.frames] at hw
  exact ⟨S, rfl, hstep, hturned.tree, hw⟩

/-- A round in which the loop goes on. -/
theorem Coherent.engaged_again (hc : Coherent even w roots) (h : Engaged w outer l)
    (ha : AsksAgain o w outer f x w₁) (ht : turn f x w₁ = .ok (true, l') w₂)
    (hr : Walk.round o w = .ok progress w') : Engaged w' outer l' ∧ w'.secondary = w₂.secondary := by
  obtain ⟨rfl, he, -, -, hsees, root, q, hat⟩ := hc.engaged_asks h ha
  obtain ⟨S, rfl, hcont, htree, rfl⟩ := hat.round_again ha ht hr
  have hpa : w₁.space.tree.parent? x.anchor = some q := hat.parent
  refine ⟨⟨_, rfl, hsees, ⟨[], rfl, fun y hy => by cases hy⟩, ?_⟩, rfl⟩
  show Clear w₂.space.tree S.loop.anchor
  rw [htree]
  exact he.clear.of_bodyFrom (bodyFrom_of_advanced_self hat.wellFormed hpa hcont.advanced)

/-- The walk comes to the loop of a node. -/
theorem Coherent.atLoopStart (hc : Coherent even w roots) (ha : AsksFirst o w n f l w₁) :
    ∃ root more p, AtLoopStart w₁ f more root p n l ∧ (f.seesSecondary = true → more = [])
      ∧ w₁.secondary = w.secondary
      ∧ ∃ t key c, Loop.declared t n key c = .ok l ∧ (w₁.space.tree.node n).attrs = (t.node n).attrs := by
  obtain ⟨r, w₀, ⟨w₂, f₂, more, hrot, hf₂, htake, rfl⟩, hn, hname, hl⟩ := ha
  obtain ⟨hc₂, -, -⟩ := hc.rotate hrot
  have hstack := hc₂.stack
  rw [hf₂] at hstack
  obtain ⟨root, rs, rfl⟩ := hstack.roots_cons
  obtain ⟨hsame, -, -⟩ := hc₂.visiting hf₂ htake
  obtain ⟨p, hvisiting, -⟩ := hc₂.aboutToVisit hf₂ htake hn
  obtain ⟨hat, hdecl, hent, hsec⟩ := hvisiting.entered hl
  exact ⟨root, more, p, hat, fun hs => (hstack.main_of_sees (hsame.sees ▸ hs)).1,
    (show w₁.secondary = w₂.secondary from hsec).trans (hc.secondary_rotate hrot),
    w₂.space.tree, r.key, _, hdecl, (anchor_of_entered hent).2.1⟩

/-- What a round does in which a loop begins. -/
theorem Coherent.round_first (hc : Coherent even w roots) (ha : AsksFirst o w n f l w₁)
    (ht : turn f l w₁ = .ok (true, l') w₂) (hr : Walk.round o w = .ok progress w') :
    ∃ root more p S, AtLoopStart w₁ f more root p n l ∧ (f.seesSecondary = true → more = []) ∧ f.run = none
      ∧ l' = S.loop ∧ Continues ⟨l, w₁.space.tree, w₁.feedOf f l, f.scan⟩ p S ∧ w₂.space.tree = w₁.space.tree
      ∧ S.tree = w₁.space.tree ∧ S.loop.anchor = n
      ∧ w' = { w₂ with frames := { f with scan := S.scan, loops := S.loop :: f.loops } :: more } := by
  obtain ⟨root, more, p, hat, hmore, -⟩ := hc.atLoopStart ha
  obtain ⟨S, -, rfl, hturned, hstep⟩ := hat.turned ht
  have hcont : Continues ⟨l, w₁.space.tree, w₁.feedOf f l, f.scan⟩ p S := hstep
  obtain ⟨htree, hanchor⟩ := hcont.firstRun hat.count
  obtain ⟨r, w₀, htakes, hn, hname, hl⟩ := ha
  rw [round_of_takesUp htakes, hn] at hr
  obtain ⟨_, f₂, more₂, hrot, hf₂, htake, rfl⟩ := htakes
  have hc₂ := (hc.rotate hrot).1
  have hstack := hc₂.stack
  rw [hf₂] at hstack
  obtain ⟨root₂, rs, rfl⟩ := hstack.roots_cons
  obtain ⟨-, -, _, hrun, hidle⟩ := hc₂.visiting hf₂ htake
  obtain ⟨v, w₃, h₃, hrest⟩ := Action.bind_eq_ok.mp hr
  obtain ⟨_, w₄, h₄, hlast⟩ := Action.bind_eq_ok.mp hrest
  have hv := Action.locating_eq_ok.mp h₃
  rw [Walk.visit, Action.get_bind_eq_ok] at hv
  obtain ⟨tag, htag, hv⟩ := Action.ofExcept_bind_eq_ok.mp hv
  have htag' : nameOf tag = "repeat" := (tagOf_ok htag).symm.trans hname
  obtain rfl : tag = .loop := by
    cases tag <;> first | rfl | exact absurd htag' (by decide)
  obtain ⟨_, w₅, h₅, hv⟩ := Action.bind_eq_ok.mp hv
  obtain ⟨rfl, rfl⟩ := Action.pure_eq_ok.mp hv
  obtain ⟨-, rfl⟩ := Action.pure_eq_ok.mp hlast
  rw [startLoop, Action.get_bind, Action.bind_of_ok hl, Action.bind_of_ok ht] at h₅
  have hw := modifyFrame_eq_ok.mp h₅
  simp only [hturned.frames] at hw
  subst hw
  -- the loop has put a position on the scan, and so the walk does not go on behind it
  obtain ⟨first, hscan, -⟩ := hcont.begins
  have hmoved : S.scan.length ≠ r.base := by
    rw [hscan, hrun.base, List.length_cons]
    exact Nat.succ_ne_self _
  have hw' := Action.modify_eq_ok.mp h₄
  dsimp only at hw'
  rw [if_neg hmoved] at hw'
  exact ⟨root, more, p, S, hat, hmore, hidle, rfl, hcont, hturned.tree.trans htree, htree, hanchor.trans hat.anchor, hw'⟩

/-- A round in which a loop begins, that has no loop in its body that moves the cursor. -/
theorem Coherent.engaged_first (hc : Coherent even w roots) (ha : AsksFirst o w n f l w₁)
    (hsees : f.seesSecondary = true) (hclear : Clear w₁.space.tree n)
    (ht : turn f l w₁ = .ok (true, l') w₂) (hr : Walk.round o w = .ok progress w') :
    Engaged w' f.loops l' ∧ w'.secondary = w₂.secondary := by
  obtain ⟨root, more, p, S, hat, hmore, -, rfl, -, htree, -, hanchor, rfl⟩ := hc.round_first ha ht hr
  cases hmore hsees
  refine ⟨⟨_, rfl, hsees, ⟨[], rfl, fun y hy => by cases hy⟩, ?_⟩, rfl⟩
  show Clear w₂.space.tree S.loop.anchor
  rw [htree, hanchor]
  exact hclear

end Walk

end Stencil
