/-
  A field in the body of a loop is come to once in each run.

  While the loop runs, the walk owes the field as often as nodes of the way to it are pending (`owed`): once when a
  run begins, and never when it has ended.  In between,

    1. a visit to the field itself takes it off what is owed, and a visit to any other node does not
       (`Visiting.passed`): a group on the way makes way for the next node on it, and what stands in other loops is
       never on the way;
    2. the loops that are asked at the end of a run leave it as it is, up to the loop itself
       (`RunEnded.spared`, `RunEnded.spared_asks`).

  So in each run the walk comes to the field exactly once.  What else it does leaves the field alone.
-/
import Stencil.Proofs.Walk.Untouched
import Stencil.Proofs.Walk.Ways

set_option autoImplicit false

namespace Stencil.Walk

open Stencil.Tree (Under Inner Closed Keeps Refreshed)
open Loop (Entered copies)
open Loop.Turn (Continues Advanced)

variable {t t' : Tree} {rs roots parents : List NodeId} {root p q n m a x y c : NodeId} {r : Run} {f g : Frame}
  {more : List Frame} {w w₁ w₂ w' : Walk} {o : Options} {key : String} {l l' k : Loop} {outer outer' : List Loop}
  {scan : List Position} {u : Unit} {even : Prop} {way : List NodeId} {progress : Progress}

/-! ## In the body of a loop -/

/-- The walk of the document of `f` is in a run of the loop `l`, inside the loops `outer`.  The field `x` stands in
    the body of the loop, at the end of the way. -/
structure AmidIn (t : Tree) (f : Frame) (outer : List Loop) (l : Loop) (x : NodeId) (way : List NodeId) : Prop where
  loops : ∃ inner, f.loops = inner ++ l :: outer
  way : Way t l.anchor x way
  name : t.name x = "item"

namespace AmidIn

variable (h : AmidIn t f outer l x way)

include h

theorem mem : l ∈ f.loops := by
  obtain ⟨inner, hloops⟩ := h.loops
  rw [hloops]
  exact List.mem_append_right _ List.mem_cons_self

theorem of_kept (hl : g.loops = f.loops) (hk : ∀ y ∈ way, t'.parent? y = t.parent? y ∧ t'.name y = t.name y) :
    AmidIn t' g outer l x way :=
  ⟨hl ▸ h.loops, h.way.of_kept hk, (hk x h.way.mem).2.trans h.name⟩

/-- One more loop runs in it. -/
theorem cons (hl : g.loops = k :: f.loops) : AmidIn t g outer l x way := by
  obtain ⟨inner, hloops⟩ := h.loops
  exact ⟨⟨k :: inner, by rw [hl, hloops]; rfl⟩, h.way, h.name⟩

/-- The innermost loop of the document is the loop itself, or one that runs in it. -/
theorem innermost (hl : f.loops = k :: outer') :
    k = l ∧ outer' = outer ∨ AmidIn t { f with loops := outer' } outer l x way := by
  obtain ⟨inner, hloops⟩ := h.loops
  rw [hl] at hloops
  cases inner with
  | nil => exact .inl (List.cons.inj hloops)
  | cons y inner => exact .inr ⟨⟨inner, (List.cons.inj hloops).2⟩, h.way, h.name⟩

/-- Only groups and the field itself are on the way. -/
theorem eq_of_mem (hy : y ∈ way) (hname : t.name y ≠ "items") : y = x :=
  not_not.mp fun hne => hname (h.way.name_of_ne hy hne)

theorem ne_of_name (hname : t.name y ≠ "item") : y ≠ x := by
  rintro rfl
  exact hname h.name

/-- No loop is on the way. -/
theorem not_mem_of_loop (hname : t.name y = "repeat") : y ∉ way := fun hy =>
  h.ne_of_name (by rw [hname]; decide) (h.eq_of_mem hy (by rw [hname]; decide))

/-- The field hangs off the trunk. -/
theorem hangs (hroot : IsRoot t root) (ha : Inner t root l.anchor) : Hangs t root x := by
  obtain ⟨q, hq, hi⟩ := h.way.parent_inner ha h.way.mem
  exact .of_item hroot hq hi h.name

/-- The field stands in no loop in the body of the loop. -/
theorem not_under_loop (hwf : t.WellFormed) (hc : t.name c = "repeat") (hp : t.parent? c = some p)
    (ha : Under t l.anchor p) : ¬ Under t c x := by
  intro hu
  have hne : c ≠ l.anchor := by
    rintro rfl
    exact hwf.not_under_parent hp ha
  exact h.not_mem_of_loop hc (h.way.mem_of_between hwf (ha.trans (Tree.under_of_parent hp)) hne hu)

end AmidIn

/-- The walk stands in the body of the loop. -/
theorem AmidIn.inner (h : AmidIn t f outer l x way) (hs : Standing t root p key f.loops f.scan) :
    Inner t l.anchor p := by
  obtain ⟨inner, hloops⟩ := h.loops
  rw [hloops] at hs
  exact hs.inner_anchor

/-- A change that the walk of the document does not notice. -/
theorem AmidIn.of_levels (h : AmidIn t f outer l x way) (hwf : t.WellFormed) (hwf' : t'.WellFormed)
    (ha : Inner t root l.anchor) (hlevel : ∀ q, Inner t root q → Work.Level t t' q) : AmidIn t' f outer l x way :=
  h.of_kept rfl fun y hy => by
    obtain ⟨q, hq, hi⟩ := h.way.parent_inner ha hy
    refine ⟨?_, (hlevel q hi).name y (hwf.mem_children.mpr hq)⟩
    rw [hq, ← hwf'.mem_children, (hlevel q hi).children]
    exact hwf.mem_children.mpr hq

/-- Of the children of a node in the body, one is on the way if the node is and is not the last on it. -/
theorem AmidIn.countP_children (h : AmidIn t f outer l x way) (hwf : t.WellFormed) (hp : t.parent? n = some p)
    (ha : Under t l.anchor p) : (t.children n).countP (· ∈ way) = if n ∈ way ∧ n ≠ x then 1 else 0 := by
  split
  · rename_i hn
    exact h.way.countP_children hwf (.inr hn)
  · rename_i hn
    refine h.way.countP_eq_zero hwf (fun y hy => hwf.mem_children.mp hy) ?_ fun hm => ?_
    · rintro rfl
      exact hwf.not_under_parent hp ha
    · exact not_not.mp fun hne => hn ⟨hm, hne⟩

/-! ## Visits -/

/-- What a visit to `n` leaves to come to: what is pending in the frame, and what is behind `n`, if the walk goes on
    there. -/
def owedBehind (t : Tree) (r : Run) (n : NodeId) (g : Frame) (way : List NodeId) : Nat :=
  (if g.scan.length = r.base then (t.followingSiblings n).countP (· ∈ way) else 0) + owed t g way

/-- A position that is new goes first: the walk does not go on behind `n` yet. -/
theorem owedBehind_scan_cons {pos : Position} (hi : g.run = none) (hs : g.scan = pos :: scan)
    (hb : r.base ≤ scan.length) :
    owedBehind t r n g way = (onwards t pos.node).countP (· ∈ way) + owed t { g with scan } way := by
  unfold owedBehind
  rw [if_neg (by rw [hs, List.length_cons]; omega), owed_scan_cons hi hs, Nat.zero_add]

/-- A visit to `n` in the body of a loop is over: it has taken the field off what is owed, if it was one to the
    field. -/
structure Passed (w : Walk) (f : Frame) (more : List Frame) (r : Run) (p n : NodeId) (outer : List Loop) (l : Loop)
    (x : NodeId) (way : List NodeId) (w' : Walk) (g : Frame) : Prop where
  frames : w'.frames = g :: more
  idle : g.run = none
  parent : w'.space.tree.parent? n = some p
  amid : AmidIn w'.space.tree g outer l x way
  count : owedBehind w'.space.tree r n g way + (if n = x then 1 else 0)
    = (onwards w.space.tree n).countP (· ∈ way) + owed w.space.tree f way

section

variable (h : Visiting w f more root rs p r n) (hin : AmidIn w.space.tree f outer l x way)

include h hin

/-- A visit that changes no document that is walked. -/
theorem Visiting.passed_of_around (hname : w.space.tree.name n ≠ "items")
    (ha : Around (root :: rs) w.space.tree w'.space.tree) (hf : w'.frames = w.frames) :
    Passed w f more r p n outer l x way w' f := by
  have hwf := h.wellFormed
  have hlevel : ∀ q, Inner w.space.tree root q → Work.Level w.space.tree w'.space.tree q := fun q hq =>
    Work.level_of_around hwf ha List.mem_cons_self h.isRoot hq
  have hs := h.running.standing
  have hparent : w'.space.tree.parent? n = some p := by
    rw [← ha.wellFormed.mem_children, (hlevel p hs.inner).children]
    exact hwf.mem_children.mpr h.parent?
  have htrunk := Tree.trunk_inner hwf h.isRoot.live h.isRoot.parent?
  have hpending : pending w'.space.tree f = pending w.space.tree f :=
    pending_of_standing hwf ha.wellFormed h.idle hs fun q hq _ => (hlevel q (htrunk.of_under hq hs.inner)).children
  have hfollow : w'.space.tree.followingSiblings n = w.space.tree.followingSiblings n :=
    Meaning.followingSiblings_congr (hparent.trans h.parent?.symm) fun q hq => by
      rw [← Option.some.inj (h.parent?.symm.trans hq)]
      exact (hlevel p hs.inner).children
  refine ⟨hf.trans h.frames, h.idle, hparent, ?_, ?_⟩
  · exact hin.of_levels hwf ha.wellFormed (hs.inner_of_mem hin.mem) hlevel
  · -- the node is on the way only if it is the field
    have hmem : n ∈ way ↔ n = x := ⟨fun hm => hin.eq_of_mem hm hname, fun he => he ▸ hin.way.mem⟩
    unfold owedBehind owed onwards
    rw [if_pos h.running.base.symm, hfollow, hpending, List.countP_cons]
    simp only [decide_eq_true_eq, hmem]
    omega

/-- Where the walk comes back behind a group, there stands what stood behind it, or a node that is new; so the same is
    on the way from there. -/
theorem Visiting.behind_group {next : NodeId} (hnext : w.space.tree.nextSibling? n = some next ∧ t' = w.space.tree
      ∨ w.space.tree.nextSibling? n = none ∧ Marked w.space.tree p next t') :
    t'.WellFormed
      ∧ (∀ y, w.space.tree.Live y → t'.parent? y = w.space.tree.parent? y ∧ t'.name y = w.space.tree.name y)
      ∧ (∀ q, Inner w.space.tree root q → q ≠ p → t'.children q = w.space.tree.children q)
      ∧ (onwards t' next).countP (· ∈ way) = (w.space.tree.followingSiblings n).countP (· ∈ way) := by
  have hwf := h.wellFormed
  rcases hnext with ⟨hn, rfl⟩ | ⟨hn, hm⟩
  · exact ⟨hwf, fun _ _ => ⟨rfl, rfl⟩, fun _ _ _ => rfl, by rw [onwards_nextSibling? hwf hn]⟩
  · refine ⟨hm.wellFormed, fun y hy => ⟨hm.parent? y hy, Tree.name_eq_of_content (hm.content y hy)⟩,
      fun q hq hne => (level_of_added hwf h.isRoot hm hq hne).children, ?_⟩
    have hnew : next ∉ way := fun hmem => by
      obtain ⟨q, hq, -⟩ := hin.way.parent_of_mem hwf hmem
      exact hm.fresh (hwf.live_of_parent hq).1
    have hlast : t'.children p = w.space.tree.children p ++ next :: [] := hm.children
    rw [followingSiblings_of_last hwf h.parent? hn, onwards, hm.wellFormed.followingSiblings_of_split hlast]
    exact List.countP_eq_zero.mpr fun y hy => by
      rw [List.mem_singleton.mp hy, decide_eq_true_iff]
      exact hnew

/-- A group makes way for its children. -/
theorem Visiting.passed_items (hname : w.space.tree.name n = "items")
    (hd : descend w.space.tree f.scan r.key n = .ok (t', scan))
    (hw : w' = { w with
      space := { w.space with tree := t' }
      frames := { f with scan } :: more }) :
    Passed w f more r p n outer l x way w' { f with scan } := by
  have hwf := h.wellFormed
  have hpn := h.parent?
  have hs := h.running.standing
  have hi := hs.inner
  have hnx : n ≠ x := hin.ne_of_name (by rw [hname]; decide)
  have hchildren : (w.space.tree.children n).countP (· ∈ way) = if n ∈ way then 1 else 0 := by
    rw [hin.countP_children hwf hpn (hin.inner hs).under]
    exact if_congr (and_iff_left hnx) rfl rfl
  subst hw
  rcases descend_ok hwf hpn hd with ⟨hf, rfl, rfl⟩ | ⟨first, next, hf, rfl, hnext⟩
  · -- a group without children is not on the way
    have hn : n ∉ way := fun hm => by
      rw [if_pos hm, List.head?_eq_none_iff.mp hf] at hchildren
      cases hchildren
    refine ⟨rfl, h.idle, hpn, hin, ?_⟩
    unfold owedBehind onwards
    rw [if_pos h.running.base.symm, if_neg hnx, List.countP_cons_of_neg (by rw [decide_eq_true_iff]; exact hn)]
    rfl
  obtain ⟨hwf', hlive, hlevel, hbehind⟩ := h.behind_group hin hnext
  have htrunk := Tree.trunk_inner hwf h.isRoot.live h.isRoot.parent?
  have hin' : Inner w.space.tree root n := .step hi hpn (.inl hname)
  have hchildren' : t'.children n = w.space.tree.children n := hlevel n hin' (hwf.parent_ne hpn).symm
  have hpending : pending t' f = pending w.space.tree f :=
    pending_of_standing hwf hwf' h.idle hs fun q hq hne => hlevel q (htrunk.of_under hq hi) hne
  refine ⟨rfl, h.idle, (hlive n (hwf.live_of_parent hpn).1).1.trans hpn, hin.of_kept rfl fun y hy => ?_, ?_⟩
  · obtain ⟨q, hq, -⟩ := hin.way.parent_of_mem hwf hy
    exact hlive y (hwf.live_of_parent hq).1
  · have hfirst : t'.firstChild? n = some first := by
      unfold Tree.firstChild?
      rw [hchildren']
      exact hf
    have hrest : owed t' { f with scan := f.scan } way = owed w.space.tree f way :=
      congrArg (List.countP _) hpending
    show owedBehind t' r n { f with scan := ⟨w.space.tree.keyPath r.key n, first⟩ :: ⟨r.key, next⟩ :: f.scan } way
      + _ = _
    have hbase : r.base ≤ (⟨r.key, next⟩ :: f.scan : List Position).length := by
      rw [h.running.base]
      exact Nat.le_succ _
    rw [owedBehind_scan_cons (g := { f with scan := _ :: ⟨r.key, next⟩ :: f.scan }) h.idle rfl hbase, if_neg hnx,
      owed_scan_cons (f := { f with scan := ⟨r.key, next⟩ :: f.scan }) h.idle rfl,
      onwards_firstChild? hwf' hfirst, hchildren', hchildren, hbehind, hrest]
    unfold onwards
    rw [List.countP_cons]
    simp only [decide_eq_true_eq]
    omega

/-- The loop of a node is entered: what is dropped then is not on the way. -/
theorem Visiting.amid_entered (hname : w.space.tree.name n = "repeat") (he : Entered w.space.tree n p t') :
    AmidIn t' f outer l x way ∧ owed t' f way = owed w.space.tree f way
      ∧ (t'.followingSiblings n).countP (· ∈ way) = (w.space.tree.followingSiblings n).countP (· ∈ way) := by
  have hwf := h.wellFormed
  have hpn := h.parent?
  have hs := h.running.standing
  have hcopy : ∀ c ∈ copies w.space.tree n, w.space.tree.name c = "repeat" ∧ w.space.tree.parent? c = some p :=
    fun c hc => ⟨(copied_of_mem_copies hwf hname hc).name, (Loop.parent?_of_mem_copies hwf hpn hc).1⟩
  refine ⟨hin.of_kept rfl fun y hy => ?_, ?_, ?_⟩
  · obtain ⟨q, hq, -⟩ := hin.way.parent_of_mem hwf hy
    have hl : t'.Live y := (he.live y).mpr ⟨(hwf.live_of_parent hq).1, fun c hc hu => by
      obtain ⟨hcn, hcp⟩ := hcopy c hc
      exact hin.not_under_loop hwf hcn hcp (hin.inner hs).under (hu.trans (hin.way.between hy).2)⟩
    exact ⟨he.parent? y hl, (loop_of_entered he hl).1⟩
  · unfold owed
    rw [pending_of_standing hwf he.wellFormed h.idle hs fun q hq hne =>
      (level_of_entered hwf h.isRoot hs.inner hpn he hq hne).children]
  · obtain ⟨before, after, hsplit, hsplit', -⟩ := siblings_of_entered hwf hpn he
    have hdropped : (copies w.space.tree n).countP (· ∈ way) = 0 := List.countP_eq_zero.mpr fun c hc hm =>
      hin.not_mem_of_loop (hcopy c hc).1 (of_decide_eq_true hm)
    rw [hwf.followingSiblings_of_split hsplit, he.wellFormed.followingSiblings_of_split hsplit', List.countP_append,
      hdropped, Nat.zero_add]

/-- What stands in a loop in the body is not on the way. -/
theorem Visiting.passed_loop (hname : w.space.tree.name n = "repeat") (hl : startLoop f r.key n w = .ok u w') :
    ∃ g, Passed w f more r p n outer l x way w' g := by
  rw [startLoop, Action.get_bind_eq_ok] at hl
  obtain ⟨k, w₁, h₁, hl⟩ := Action.bind_eq_ok.mp hl
  obtain ⟨⟨next, k'⟩, w₂, h₂, hl⟩ := Action.bind_eq_ok.mp hl
  obtain ⟨hat, -, hent, -⟩ := h.entered h₁
  obtain ⟨S, -, rfl, hturned, hstep⟩ := hat.turned h₂
  obtain ⟨hin₁, howed, hfollow⟩ := h.amid_entered hin hname hent
  have hwf₁ := hat.wellFormed
  have hnx : n ≠ x := hin.ne_of_name (by rw [hname]; decide)
  have hn : n ∉ way := hin.not_mem_of_loop hname
  have hanchor := hat.anchor
  -- what has been owed is what is behind the loop, and what was pending before
  have hbefore : (onwards w.space.tree n).countP (· ∈ way) + owed w.space.tree f way
      = (w₁.space.tree.followingSiblings n).countP (· ∈ way) + owed w₁.space.tree f way := by
    rw [hfollow, howed, onwards, List.countP_cons_of_neg (by rw [decide_eq_true_iff]; exact hn)]
  have hcount : ∀ {g : Frame}, owedBehind w₁.space.tree r n g way
      = (w₁.space.tree.followingSiblings n).countP (· ∈ way) + owed w₁.space.tree f way →
      owedBehind w₁.space.tree r n g way + (if n = x then 1 else 0)
        = (onwards w.space.tree n).countP (· ∈ way) + owed w.space.tree f way := fun hg => by
    rw [hg, if_neg hnx, hbefore, Nat.add_zero]
  cases next with
  | true =>
    have hcont : Continues ⟨k, w₁.space.tree, w₁.feedOf f k, f.scan⟩ p S := hstep
    obtain ⟨htree, hsame⟩ := hcont.firstRun hat.count
    obtain ⟨first, hscan, hfirst⟩ := hcont.begins
    rw [htree, hsame, hanchor] at hfirst
    replace htree : w₂.space.tree = w₁.space.tree := hturned.tree.trans htree
    replace hsame : S.loop.anchor = n := hsame.trans hanchor
    have hw := modifyFrame_eq_ok.mp hl
    simp only [hturned.frames] at hw
    subst hw
    refine ⟨{ f with scan := S.scan, loops := S.loop :: f.loops }, rfl, h.idle, ?_, ?_, ?_⟩
    · show w₂.space.tree.parent? n = some p
      rw [htree]
      exact hat.parent
    · show AmidIn w₂.space.tree _ outer l x way
      rw [htree]
      exact hin₁.cons rfl
    · show owedBehind w₂.space.tree r n _ way + _ = _
      rw [htree]
      refine hcount ?_
      have hbody : (w₁.space.tree.children n).countP (· ∈ way) = 0 := by
        rw [hin₁.countP_children hwf₁ hat.parent (hin₁.inner hat.standing).under, if_neg fun hm => hn hm.1]
      rw [owedBehind_scan_cons (g := { f with scan := S.scan, loops := S.loop :: f.loops }) h.idle hscan
          h.running.base.le, onwards_firstChild? hwf₁ hfirst, hbody,
        owed_loops_cons (f := { f with loops := S.loop :: f.loops }) rfl, hsame, Nat.zero_add]
  | false =>
    have hends : Loop.Turn.Ends ⟨k, w₁.space.tree, w₁.feedOf f k, f.scan⟩ S := hstep
    obtain ⟨-, rfl⟩ := Action.pure_eq_ok.mp hl
    have htree : w₂.space.tree = w₁.space.tree := hturned.tree.trans hends.tree
    refine ⟨{ f with scan := S.scan }, hturned.frames, h.idle, ?_, ?_, ?_⟩
    · rw [htree]
      exact hat.parent
    · rw [htree]
      exact ⟨hin₁.loops, hin₁.way, hin₁.name⟩
    · rw [htree]
      refine hcount ?_
      have hscan := hends.scan
      unfold Loop.Turn.behind at hscan
      dsimp only at hscan
      rw [hanchor] at hscan
      cases hsib : w₁.space.tree.nextSibling? n with
      | some next =>
        simp only [hsib] at hscan
        rw [owedBehind_scan_cons (g := { f with scan := S.scan }) h.idle hscan h.running.base.le,
          onwards_nextSibling? hwf₁ hsib]
      | none =>
        simp only [hsib] at hscan
        rw [owedBehind, if_pos (by rw [hscan, h.running.base]), hscan]

/-- Every visit takes its node off what is owed, and if the node is a group, it makes way for its children. -/
theorem Visiting.passed {v : Visit} (hrs : ∀ r ∈ rs, IsRoot w.space.tree r)
    (hdocs : ∀ d ∈ documents w, IsRoot w.space.tree d) (hsees : f.seesSecondary = true → rs = [] ∧ root ∉ documents w)
    (hv : Walk.visit o f r.key n w = .ok v w') : ∃ g, Passed w f more r p n outer l x way w' g := by
  rw [Walk.visit, Action.get_bind_eq_ok] at hv
  obtain ⟨tag, htag, hv⟩ := Action.ofExcept_bind_eq_ok.mp hv
  have hname := tagOf_ok htag
  have hwf := h.wellFormed
  cases tag with
  | item =>
    obtain ⟨_, w₁, h₁, hv⟩ := Action.bind_eq_ok.mp hv
    obtain ⟨_, w₂, h₂, hv⟩ := Action.bind_eq_ok.mp hv
    obtain ⟨-, rfl⟩ := Action.pure_eq_ok.mp hv
    obtain ⟨value, rfl⟩ := fillItem_ok h₁
    have hr₁ : Refreshed w.space.tree (putValue w.space.tree n value) :=
      refreshed_putValue hwf h.parent? (by rw [hname]; decide)
    have hnot : w.space.tree.name n ≠ "items" := by rw [hname]; decide
    rcases onSink_ok h₂ with ⟨-, rfl⟩ | ⟨s, j, -, hj, rfl⟩
    · exact ⟨f, h.passed_of_around hin hnot ((quiet_of_refreshed hwf hr₁).around hwf) rfl⟩
    · have hput := Job.put_setData hr₁.wellFormed hj
      exact ⟨f, h.passed_of_around hin hnot ((quiet_of_refreshed hwf (hr₁.trans hput.tree)).around hwf) rfl⟩
  | items =>
    obtain ⟨⟨t, scan⟩, hd, hv⟩ := Action.ofExcept_bind_eq_ok.mp hv
    obtain ⟨_, w₁, h₁, hv⟩ := Action.bind_eq_ok.mp hv
    obtain ⟨_, w₂, h₂, hv⟩ := Action.bind_eq_ok.mp hv
    obtain ⟨-, rfl⟩ := Action.pure_eq_ok.mp hv
    rw [modifyTree_eq_ok.mp h₁] at h₂
    have hw := modifyFrame_eq_ok.mp h₂
    simp only [h.frames] at hw
    exact ⟨_, h.passed_items hin hname hd hw⟩
  | loop =>
    obtain ⟨_, w₁, h₁, hv⟩ := Action.bind_eq_ok.mp hv
    obtain ⟨-, rfl⟩ := Action.pure_eq_ok.mp hv
    exact h.passed_loop hin hname h₁
  | document =>
    obtain ⟨ha, hrest, -⟩ := h.around_document hrs hdocs hsees hv
    exact ⟨f, h.passed_of_around hin (by rw [hname]; decide) ha (by rw [hrest])⟩
  | writer =>
    have hnot : w.space.tree.name n ≠ "items" := by rw [hname]; decide
    rw [visitWriter, Action.get_bind_eq_ok] at hv
    cases hs : w.sink with
    | none =>
      simp only [hs] at hv
      obtain ⟨_, w₁, h₁, hv⟩ := Action.bind_eq_ok.mp hv
      obtain ⟨-, rfl⟩ := Action.pure_eq_ok.mp hv
      have ho := sinkOpened hwf (h.atWriter hname) h₁
      exact ⟨f, h.passed_of_around hin hnot (ho.step.quiet.around hwf) (by rw [ho.rest])⟩
    | some s =>
      simp only [hs] at hv
      obtain ⟨s', w₁, h₁, hv⟩ := Action.bind_eq_ok.mp hv
      have ht := taken_takeSink hwf h₁
      rw [Action.modify_bind_eq_ok] at hv
      obtain ⟨-, rfl⟩ := Action.pure_eq_ok.mp hv
      exact ⟨f, h.passed_of_around hin hnot ((quiet_of_refreshed hwf ht.tree).around hwf) (by rw [ht.rest])⟩
  | nop =>
    obtain ⟨-, rfl⟩ := Action.pure_eq_ok.mp hv
    exact ⟨f, h.passed_of_around hin (by rw [hname]; decide) ((Quiet.refl hwf).around hwf) rfl⟩

end

/-- Behind a visit the walk owes the field as before, unless it has come to it. -/
theorem Passed.resume (hp : Passed w f more r p n outer l x way w₁ g) (hwf : w₁.space.tree.WellFormed)
    (hr : Walk.resume r n w₁ = .ok u w') :
    ∃ g', w'.frames = g' :: more ∧ g'.seesSecondary = g.seesSecondary ∧ AmidIn w'.space.tree g' outer l x way
      ∧ owed w'.space.tree g' way + (if n = x then 1 else 0)
        = (onwards w.space.tree n).countP (· ∈ way) + owed w.space.tree f way := by
  have hcount := hp.count
  unfold owedBehind at hcount
  have hw := Action.modify_eq_ok.mp hr
  simp only [hp.frames] at hw
  by_cases hb : g.scan.length = r.base
  · rw [if_pos hb] at hw hcount
    subst hw
    refine ⟨_, rfl, rfl, ⟨hp.amid.loops, hp.amid.way, hp.amid.name⟩, ?_⟩
    have htake : takeRun { g with run := some { r with next := w₁.space.tree.nextSibling? n } }
        = some ({ r with next := w₁.space.tree.nextSibling? n }, g) := by
      unfold takeRun
      dsimp only
      rw [← hp.idle]
    rw [← hcount, ← elim_nextSibling? hwf hp.parent, owed_takeRun htake]
  · rw [if_neg hb] at hw hcount
    subst hw
    rw [Nat.zero_add] at hcount
    exact ⟨g, hp.frames, rfl, hp.amid, hcount⟩

/-! ## The end of a run -/

/-- A part of a round has not come to the field: the field is where it was, and it is owed as before. -/
structure Spared (w : Walk) (f : Frame) (outer : List Loop) (l : Loop) (x : NodeId) (way : List NodeId) (w' : Walk)
    (g : Frame) : Prop where
  amid : AmidIn w'.space.tree g outer l x way
  owed : owed w'.space.tree g way = owed w.space.tree f way

theorem Spared.trans {f₁ : Frame} (h : Spared w f outer l x way w₁ f₁) (h' : Spared w₁ f₁ outer l x way w' g) :
    Spared w f outer l x way w' g :=
  ⟨h'.amid, h'.owed.trans h.owed⟩

/-- Behind a further run stands what stood behind the run before. -/
theorem followingSiblings_of_advanced (hwf : t.WellFormed) (ha : t.parent? a = some p) (h : Advanced t p a c t') :
    t'.followingSiblings c = t.followingSiblings a := by
  obtain ⟨before, after, hs⟩ := hwf.exists_split ha
  rcases h.siblings with ⟨rfl, hc, -⟩ | ⟨before', after', hs', hs''⟩
  · rw [h.wellFormed.followingSiblings_of_split (hc.trans hs), hwf.followingSiblings_of_split hs]
  · rw [hwf.followingSiblings_of_split hs', ← h.wellFormed.followingSiblings_of_split (n := c)
      (x := before' ++ [a]) (y := after') (by rw [hs'']; simp)]

section

variable (hrun : RunEnded w f more root p key parents) (hin : AmidIn w.space.tree f outer l x way)

include hrun hin

/-- What waits is written up. -/
theorem Asking.spared (hask : Asking o w f more root p q k outer' w₁) : Spared w f outer l x way w₁ f := by
  have hwf := hrun.wellFormed
  have ha : Around [root] w.space.tree w₁.space.tree := (quiet_of_refreshed hwf hask.up.tree).around hwf
  have hstand := hrun.standing
  have hlevel : ∀ q, Inner w.space.tree root q → Work.Level w.space.tree w₁.space.tree q := fun q hq =>
    Work.level_of_around hwf ha List.mem_cons_self hrun.isRoot hq
  have htrunk := Tree.trunk_inner hwf hrun.isRoot.live hrun.isRoot.parent?
  refine ⟨hin.of_levels hwf ha.wellFormed (hstand.inner_of_mem hin.mem) hlevel, ?_⟩
  unfold Walk.owed
  rw [pending_of_standing hwf ha.wellFormed hrun.idle hstand fun q hq _ =>
    (hlevel q (htrunk.of_under hq hstand.inner)).children]

end

/-- A loop that runs in the body ends. -/
theorem AtLoopEnd.spared_of_ends {S : Loop.Turn} (hat : AtLoopEnd w f more root p q k outer')
    (hin : AmidIn w.space.tree { f with loops := outer' } outer l x way) (ht : Turned w f more S w₁)
    (he : Loop.Turn.Ends ⟨k, w.space.tree, w.feedOf f k, f.scan⟩ S) (hd : dropLoop outer' w₁ = .ok u w') :
    Spared w f outer l x way w' { f with scan := S.scan, loops := outer' } := by
  have htree : w'.space.tree = w.space.tree := by
    rw [dropLoop_ok ht hd]
    exact ht.tree.trans he.tree
  have hwf := hat.wellFormed
  refine ⟨?_, ?_⟩
  · rw [htree]
    exact ⟨hin.loops, hin.way, hin.name⟩
  · rw [htree, owed_loops_cons hat.loops, hat.anchor]
    have hscan := he.scan
    unfold Loop.Turn.behind at hscan
    dsimp only at hscan
    rw [hat.anchor] at hscan
    cases hsib : w.space.tree.nextSibling? p with
    | some next =>
      simp only [hsib] at hscan
      rw [owed_scan_cons (f := { f with scan := S.scan, loops := outer' }) hat.idle hscan,
        onwards_nextSibling? hwf hsib]
    | none =>
      simp only [hsib] at hscan
      rw [hscan, followingSiblings_of_last hwf hat.parent hsib, List.countP_nil, Nat.zero_add]

/-- A loop that runs in the body goes on. -/
theorem AtLoopEnd.spared_of_continues {S : Loop.Turn} (hat : AtLoopEnd w f more root p q k outer')
    (hin : AmidIn w.space.tree { f with loops := outer' } outer l x way) (ht : Turned w f more S w₁)
    (hc : Continues ⟨k, w.space.tree, w.feedOf f k, f.scan⟩ q S) :
    Spared w f outer l x way { w₁ with frames := { f with scan := S.scan, loops := S.loop :: outer' } :: more }
      { f with scan := S.scan, loops := S.loop :: outer' } := by
  have hwf := hat.wellFormed
  have hi := hin.inner hat.standing
  have hpa : w.space.tree.parent? k.anchor = some q := by rw [hat.anchor, hat.parent]
  have hname : w.space.tree.name k.anchor = "repeat" := by rw [hat.anchor, hat.name]
  have hadv : Advanced w.space.tree q k.anchor S.loop.anchor S.tree := hc.advanced
  obtain ⟨first, hscan, hfirst⟩ := hc.begins
  replace hscan : S.scan = ⟨k.bodyKey, first⟩ :: f.scan := hscan
  have hin' : AmidIn S.tree { f with loops := outer' } outer l x way := hin.of_kept rfl fun y hy => by
    obtain ⟨q', hq', -⟩ := hin.way.parent_of_mem hwf hy
    have hl := (hwf.live_of_parent hq').1
    exact ⟨hadv.parent? y hl, (loop_of_advanced hadv hl).1⟩
  have howed : Walk.owed S.tree { f with loops := outer' } way
      = Walk.owed w.space.tree { f with loops := outer' } way := by
    unfold Walk.owed
    rw [pending_of_standing (f := { f with loops := outer' }) hwf hadv.wellFormed hat.idle hat.standing fun m hm hne =>
      (level_of_advanced hwf hat.isRoot hat.standing.inner hpa hadv hm hne).children]
  have hbody : (S.tree.children S.loop.anchor).countP (· ∈ way) = 0 := by
    have hup : Under S.tree l.anchor q := by
      refine (Tree.under_congr fun m hm => hadv.parent? m ?_).mpr hi.under
      exact hwf.live_of_under' (hwf.live_of_parent hpa).2 hm
    have hnot : S.loop.anchor ∉ way := hin'.not_mem_of_loop (hadv.name.trans hname)
    rw [hin'.countP_children hadv.wellFormed hadv.parent hup, if_neg fun hm => hnot hm.1]
  refine ⟨?_, ?_⟩
  · show AmidIn w₁.space.tree _ outer l x way
    rw [ht.tree]
    exact hin'.cons rfl
  · show Walk.owed w₁.space.tree _ way = _
    rw [ht.tree, owed_scan_cons (f := { f with scan := S.scan, loops := S.loop :: outer' }) hat.idle hscan,
      onwards_firstChild? hadv.wellFormed hfirst, hbody,
      owed_loops_cons (f := { f with loops := S.loop :: outer' }) rfl, followingSiblings_of_advanced hwf hpa hadv,
      owed_loops_cons (f := f) hat.loops, ← howed, Nat.zero_add]

section

variable (hrun : RunEnded w f more root p key parents) (hin : AmidIn w.space.tree f outer l x way)

include hrun hin

/-- A loop that is asked and ends is the loop itself, or one in its body. -/
theorem EndsOutward.spared {S : Loop.Turn} (hask : Asking o w f more root p q k outer' w₁)
    (hend : EndsOutward w₁ f more p k outer' S w₂ w') :
    k = l ∧ outer' = outer ∨ Spared w f outer l x way w' { f with scan := S.scan, loops := outer' } := by
  have hup := hask.spared hrun hin
  refine (hup.amid.innermost hask.atEnd.loops).imp_right fun hin₁ => ?_
  exact hup.trans (hask.atEnd.spared_of_ends hin₁ hend.turned hend.ends hend.dropped)

/-- Where the loops around a run are asked without the loop itself, the walk does not come to the field. -/
theorem RunEnded.spared (hno : ∀ g k w₁, Asks o w parents k.anchor w₁ → w₁.frames = g :: more → g.loops ≠ k :: outer)
    (h : closeLoops o parents w = .ok u w') :
    ∃ g, w'.frames = g :: more ∧ SameFrame f g ∧ Spared w f outer l x way w' g := by
  -- a loop that is asked is not the one that `outer` is around
  have hother : ∀ {w₀ w₁ g p q k outer' parents'}, Asking o w₀ g more root p q k outer' w₁ →
      (∀ a w', Asks o w₀ (p :: parents') a w' → Asks o w parents a w') → outer' ≠ outer := by
    intro w₀ w₁ g p q k outer' parents' hask hasks heq
    have hat := hask.atEnd
    refine hno g k w₁ (hasks _ _ ?_) hat.frames (heq ▸ hat.loops)
    rw [hat.anchor]
    exact .here hask.name hask.level
  refine hrun.closeLoops_induct (P := fun w' g _ ps => Spared w f outer l x way w' g ∧ SameFrame f g
      ∧ ∀ a w₁, Asks o w' ps a w₁ → Asks o w parents a w₁)
    (Q := fun w' => ∃ g, w'.frames = g :: more ∧ SameFrame f g ∧ Spared w f outer l x way w' g)
    ⟨⟨hin, rfl⟩, .refl f, fun _ _ ha => ha⟩ h ?_ ?_ ?_ ?_
  · intro w₀ g p q key ps k outer' w₁ S w₂ w₃ hrun ⟨hsp, hsame, hasks⟩ hask hend
    have hsp' := (hend.spared hrun hsp.amid hask).resolve_left fun ⟨_, heq⟩ => hother hask hasks heq
    refine ⟨hsp.trans hsp', hsame.trans ⟨rfl, rfl, rfl⟩, fun a w' ha => hasks a w' ?_⟩
    exact .outward hask.name hask.level hask.atEnd.frames hask.atEnd.loops hend.turn hend.dropped hend.cascades ha
  · intro w₀ g p key ps hrun ⟨hsp, hsame, _⟩ _
    exact ⟨g, hrun.frames, hsame, hsp⟩
  · intro w₀ g p q key ps k outer' w₁ S w₂ hrun ⟨hsp, hsame, hasks⟩ hask ht hturned hc
    have hup := hask.spared hrun hsp.amid
    have hin₁ := (hup.amid.innermost hask.atEnd.loops).resolve_left fun ⟨_, heq⟩ => hother hask hasks heq
    exact ⟨_, rfl, hsame.trans ⟨rfl, rfl, rfl⟩, (hsp.trans hup).trans (hask.atEnd.spared_of_continues hin₁ hturned hc)⟩
  · intro w₀ g p q key ps k outer' w₁ S w₂ w₃ hrun ⟨hsp, hsame, hasks⟩ hask ht hturned hends hd _
    have hup := hask.spared hrun hsp.amid
    have hin₁ := (hup.amid.innermost hask.atEnd.loops).resolve_left fun ⟨_, heq⟩ => hother hask hasks heq
    refine ⟨{ g with scan := S.scan, loops := outer' }, ?_, hsame.trans ⟨rfl, rfl, rfl⟩,
      (hsp.trans hup).trans (hask.atEnd.spared_of_ends hin₁ hturned hends hd)⟩
    rw [dropLoop_ok hturned hd]

/-- Until the loop itself is asked, the walk does not come to the field; and so it has come to it before, if it was to
    come to it in this run. -/
theorem RunEnded.spared_asks (h : Asks o w parents a w₁) (hf : w₁.frames = g :: more) (hl : g.loops = k :: outer) :
    k = l ∧ Spared w f outer l x way w₁ g ∧ owed w.space.tree f way = 0 ∧ SameFrame f g
      ∧ ∃ q, AtLoopEnd w₁ g more root a q l outer := by
  let P : Walk → Frame → NodeId → List NodeId → Prop := fun w' g _ _ =>
    SameFrame f g ∧ (Spared w f outer l x way w' g ∨ g.loops.length ≤ outer.length)
  have hstart : P w f p parents := ⟨.refl f, .inl ⟨hin, rfl⟩⟩
  obtain ⟨w₀, g', key', ps, hrun', ⟨hsame, hP⟩, hf', hask⟩ :=
    hrun.asks_induct hstart h fun {w₀ g p q key ps k outer' w₁ S w₂ w₃} hrun ⟨hsame, hP⟩ hask hend => by
      refine ⟨hsame.trans ⟨rfl, rfl, rfl⟩, ?_⟩
      rcases hP with hsp | hlt
      · rcases hend.spared hrun hsp.amid hask with ⟨-, heq⟩ | hsp'
        · exact .inr (Nat.le_of_eq (congrArg List.length heq))
        · exact .inl (hsp.trans hsp')
      · right
        rw [hask.atEnd.loops, List.length_cons] at hlt
        exact Nat.le_of_succ_le hlt
  rw [hf] at hf'
  obtain ⟨rfl, -⟩ := List.cons.inj hf'
  obtain ⟨q, hask⟩ := hask k outer hl
  rcases hP with hsp | hlt
  · have hup := hask.spared hrun' hsp.amid
    have hsp₁ := hsp.trans hup
    rcases hup.amid.innermost hl with ⟨rfl, -⟩ | hin₁
    · have hat := hask.atEnd
      have howed : Walk.owed w₁.space.tree g way = 0 :=
        hsp₁.amid.way.owed_ended hat.wellFormed rfl (by rw [hat.anchor]; exact hat.parent) hat.idle hl hat.standing
      exact ⟨rfl, hsp₁, hsp₁.owed.symm.trans howed, hsame, q, hat⟩
    · -- no loop runs inside itself
      obtain ⟨inner, hloops⟩ := hin₁.loops
      have hlen := congrArg List.length hloops
      simp only [List.length_append, List.length_cons] at hlen
      omega
  · rw [hl, List.length_cons] at hlt
    omega

end

/-! ## Rounds -/

/-- The main document runs the loop `l`, inside the loops `outer`, and it owes the field `x` in the body so often; it
    may have asked for other documents, that are walked inside it. -/
def Amid (w : Walk) (outer : List Loop) (l : Loop) (x : NodeId) (way : List NodeId) (due : Nat) : Prop :=
  ∃ f, w.frames.getLast? = some f ∧ f.seesSecondary = true ∧ AmidIn w.space.tree f outer l x way
    ∧ owed w.space.tree f way = due

variable {docs : List NodeId} {frames : List Frame} {due : Nat}

/-- The innermost document is the main one, or it is another one. -/
theorem Amid.cases (h : Amid w outer l x way due) (hf : w.frames = f :: more) :
    more = [] ∧ f.seesSecondary = true ∧ AmidIn w.space.tree f outer l x way ∧ owed w.space.tree f way = due
      ∨ ∃ f' ∈ more, more.getLast? = some f' ∧ f'.seesSecondary = true ∧ AmidIn w.space.tree f' outer l x way
        ∧ owed w.space.tree f' way = due := by
  obtain ⟨f', hlast, hsees, hin, howed⟩ := h
  rw [hf] at hlast
  cases more with
  | nil =>
    cases hlast
    exact .inl ⟨rfl, hsees, hin, howed⟩
  | cons g more =>
    rw [List.getLast?_cons_cons] at hlast
    exact .inr ⟨f', List.mem_of_getLast? hlast, hlast, hsees, hin, howed⟩

/-- The field hangs off the trunk of one of the documents. -/
theorem Stack.hangs (hs : Stack t docs frames roots) (hf : f ∈ frames) (hin : AmidIn t f outer l x way) :
    ∃ m ∈ roots, Placed t m f ∧ Hangs t m x := by
  obtain ⟨m, hm, -, hroot, hp⟩ := hs.exists_root hf
  exact ⟨m, hm, hp, hin.hangs hroot (hp.inner_of_mem hin.mem)⟩

theorem Amid.hangs (hc : Coherent even w roots) (h : Amid w outer l x way due) :
    ∃ m ∈ roots, Hangs w.space.tree m x ∧ w.space.tree.name x = "item" := by
  obtain ⟨f, hlast, -, hin, -⟩ := h
  obtain ⟨m, hm, -, hx⟩ := hc.stack.hangs (List.mem_of_getLast? hlast) hin
  exact ⟨m, hm, hx, hin.name⟩

/-- A document whose walk notices nothing is in the loop as before. -/
theorem AmidIn.of_undisturbed (h : AmidIn t f outer l x way) (hwf : t.WellFormed) (hp : Placed t root f)
    (hu : Undisturbed t t' root) : AmidIn t' f outer l x way ∧ owed t' f way = owed t f way := by
  refine ⟨h.of_levels hwf hu.wellFormed (hp.inner_of_mem h.mem) hu.level, ?_⟩
  unfold owed
  rw [pending_of_placed hwf hu.wellFormed hp fun q hq => (hu.level q hq).children]

theorem Stack.amid_of_around (hs : Stack t docs frames roots) (hwf : t.WellFormed) (ha : Around roots t t')
    (hf : f ∈ frames) (hin : AmidIn t f outer l x way) :
    AmidIn t' f outer l x way ∧ owed t' f way = owed t f way := by
  obtain ⟨r, hm, -, hroot, hp⟩ := hs.exists_root hf
  exact hin.of_undisturbed hwf hp (Walk.undisturbed_of_around hwf ha hm hroot)

theorem Amid.of_around (h : Amid w outer l x way due) (hc : Coherent even w roots)
    (ha : Around roots w.space.tree w'.space.tree) (hf : w'.frames.getLast? = w.frames.getLast?) :
    Amid w' outer l x way due := by
  obtain ⟨f, hlast, hsees, hin, howed⟩ := h
  obtain ⟨hin', howed'⟩ := hc.stack.amid_of_around hc.wellFormed ha (List.mem_of_getLast? hlast) hin
  exact ⟨f, hf.trans hlast, hsees, hin', howed'.trans howed⟩

theorem Coherent.amid_rotate (hc : Coherent even w roots) (h : Amid w outer l x way due)
    (hr : Walk.rotate o w = .ok u w') : Amid w' outer l x way due ∧ Untouched w.space.tree w'.space.tree x := by
  obtain ⟨m, -, hx, hname⟩ := h.hangs hc
  refine ⟨?_, hc.untouched_rotate hx hname hr⟩
  rcases hc.rotate_ok hr with ⟨rfl, -⟩ | ⟨n, r, f, more, -, ho⟩
  · exact h
  · exact h.of_around hc (ho.step.quiet.around hc.wellFormed) (by rw [ho.rest])

/-- The main document cannot end while a loop runs in it. -/
theorem Coherent.amid_leave (hc : Coherent even w (root :: rs)) (h : Amid w outer l x way due) (hs : NeverWaits w x)
    (hf : w.frames = f :: more) (ht : takeRun f = none) (hrot : w.rotation = none)
    (hl : Walk.leave o w = .ok u w') : Amid w' outer l x way due ∧ Untouched w.space.tree w'.space.tree x := by
  have hstack := hc.stack
  rcases h.cases hf with ⟨-, -, hin, -⟩ | ⟨f', hm, hlast, hsees, hin, howed⟩
  · rw [hf] at hstack
    have hmem := hin.mem
    rw [hstack.head.2.1.ended ht] at hmem
    cases hmem
  rw [hf] at hstack
  obtain ⟨hroot, -, hfresh, howned⟩ := hstack.head
  obtain ⟨m, hmr, -, hx⟩ := hstack.tail.hangs hm hin
  refine ⟨?_, hc.untouched_leave hx hmr hs hf hl⟩
  obtain ⟨w₁, h₁, hd, rfl⟩ := leave_ok hc.wellFormed hf hl
  have hq := quiet_of_refreshed hc.wellFormed hd.tree
  obtain ⟨hin₁, howed₁⟩ := hstack.tail.amid_of_around hc.wellFormed (hq.around hc.wellFormed) hm hin
  cases ho : f.owned with
  | none => exact ⟨f', hlast, hsees, hin₁, howed₁.trans howed⟩
  | some r' =>
    obtain ⟨rfl, -⟩ := howned r' ho
    have hc₁ := hc.left hf ht hrot h₁
    obtain ⟨r, hr, -, hroot', hp⟩ := hc₁.stack.exists_root hm
    obtain ⟨hin₂, howed₂⟩ := hin₁.of_undisturbed hq.wellFormed hp
      (undisturbed_of_release hq.wellFormed hroot' (hq.isRoot hroot) fun he => hfresh (he ▸ hr))
    exact ⟨f', hlast, hsees, hin₂, howed₂.trans (howed₁.trans howed)⟩

/-- What is walked in one document is not in another. -/
theorem Visiting.not_under_root (h : Visiting w f more root rs p r n) (hx : Hangs w.space.tree m x) (hm : m ∈ rs)
    (hp : w.space.tree.parent? y = some p) : ¬ Under w.space.tree y x := by
  intro hu
  have hroot := (h.running.standing.inner.under.trans (Tree.under_of_parent hp)).trans hu
  have heq : root = m := Tree.Under.root_unique h.isRoot.parent? hx.isRoot.parent? hroot hx.under
  exact h.fresh (heq ▸ hm)

/-- The next node of a run is visited. -/
theorem Coherent.amid_resume {v : Visit} (hc : Coherent even w (root :: rs)) (h : Amid w outer l x way due)
    (hs : NeverWaits w x) (hf : w.frames = f :: more) (ht : takeRun f = some (r, g)) (hrot : w.rotation = none)
    (hn : r.next = some n) (hv : Walk.visit o g r.key n { w with frames := g :: more } = .ok v w₁)
    (h₂ : Walk.resume r n w₁ = .ok u w₂) :
    ∃ left, Amid w₂ outer l x way left ∧ left + (if n = x then 1 else 0) = due
      ∧ (n ≠ x → Untouched w.space.tree w₂.space.tree x) := by
  obtain ⟨hsame, hloops, -⟩ := hc.visiting hf ht
  obtain ⟨p, hvisiting, hrs, hmain⟩ := hc.aboutToVisit hf ht hn
  obtain ⟨_, hvisited, -⟩ := hc.visited hf ht hrot hn hv
  obtain ⟨g₁, hg₁, hsame₁, -⟩ := hvisited.frame
  obtain ⟨hspace, g₂, hg₂, -, hsees₂⟩ := frames_of_resume hg₁ h₂
  have hwf := hc.wellFormed
  have hstack := hc.stack
  rw [hf] at hstack
  have hcopy : ∀ {c}, c ∈ copies w.space.tree n → w.space.tree.name c = "repeat" ∧ w.space.tree.parent? c = some p :=
    fun hcn => ⟨(Loop.mem_copies hcn).2, (Loop.parent?_of_mem_copies hwf hvisiting.parent? hcn).1⟩
  rcases h.cases hf with ⟨rfl, hsees, hin, howed⟩ | ⟨f', hm, hlast, hsees, hin, howed⟩
  · have hing : AmidIn w.space.tree g outer l x way := hin.of_kept hloops fun _ _ => ⟨rfl, rfl⟩
    have hstand := hvisiting.running.standing
    obtain ⟨g₁', hpassed⟩ := hvisiting.passed hing hrs hc.docs hmain hv
    obtain ⟨g₂', hg₂', -, hin₂, hcount⟩ := hpassed.resume (hspace ▸ (hc.resumed hf ht hrot hn hv h₂).1.wellFormed) h₂
    obtain ⟨rfl, -⟩ := List.cons.inj (hg₂.symm.trans hg₂')
    refine ⟨_, ⟨g₂, by rw [hg₂]; rfl, ?_, hin₂, rfl⟩, ?_, fun hne => ?_⟩
    · rw [hsees₂, hsame₁.sees, hsame.sees, hsees]
    · rw [hcount, ← howed, owed_takeRun ht, hn]
      rfl
    · rw [hspace]
      refine hvisiting.untouched (hing.hangs hvisiting.isRoot (hstand.inner_of_mem hing.mem)) List.mem_cons_self hne hs
        (fun c hcn => ?_) hc.docs hmain hv
      exact hing.not_under_loop hwf (hcopy hcn).1 (hcopy hcn).2 (hing.inner hstand).under
  · -- the field is in a document around the one that is walked
    obtain ⟨m, hmr, -, hx⟩ := hstack.tail.hangs hm hin
    have hne : n ≠ x := fun he => hvisiting.not_under_root hx hmr hvisiting.parent? (he ▸ .self)
    obtain ⟨hin₁, howed₁⟩ := hstack.tail.amid_of_around hwf hvisited.around hm hin
    refine ⟨due, ⟨f', ?_, hsees, hspace ▸ hin₁, ?_⟩, by rw [if_neg hne, Nat.add_zero], fun _ => ?_⟩
    · rw [hg₂, ← hlast]
      obtain ⟨y, ys, rfl⟩ := List.exists_cons_of_ne_nil (List.ne_nil_of_mem hm)
      exact List.getLast?_cons_cons
    · rw [hspace]
      exact howed₁.trans howed
    · rw [hspace]
      exact hvisiting.untouched hx (List.mem_cons_of_mem _ hmr) hne hs
        (fun c hcn => hvisiting.not_under_root hx hmr (hcopy hcn).2) hc.docs hmain hv

theorem Coherent.amid_advance (hc : Coherent even w (root :: rs)) (h : Amid w outer l x way due)
    (hs : NeverWaits w x) (hf : w.frames = f :: more) (ht : takeRun f = some (r, g)) (hrot : w.rotation = none)
    (hn : r.next = some n) (ha : Walk.advance o g r n { w with frames := g :: more } = .ok progress w') :
    ∃ left, Amid w' outer l x way left ∧ left + (if n = x then 1 else 0) = due
      ∧ (n ≠ x → Untouched w.space.tree w'.space.tree x) := by
  obtain ⟨v, w₁, h₁, ha⟩ := Action.bind_eq_ok.mp ha
  obtain ⟨_, w₂, h₂, ha⟩ := Action.bind_eq_ok.mp ha
  have hv := Action.locating_eq_ok.mp h₁
  obtain ⟨hc₂, -, hfollows⟩ := hc.resumed hf ht hrot hn hv h₂
  obtain ⟨left, hamid, hcount, hu⟩ := hc.amid_resume h hs hf ht hrot hn hv h₂
  cases hfollows with
  | done _ =>
    obtain ⟨-, rfl⟩ := Action.pure_eq_ok.mp ha
    exact ⟨left, hamid, hcount, hu⟩
  | yield _ _ _ =>
    obtain ⟨-, rfl⟩ := Action.pure_eq_ok.mp ha
    exact ⟨left, hamid, hcount, hu⟩
  | @enter e _ he =>
    obtain ⟨_, w₃, h₃, ha⟩ := Action.bind_eq_ok.mp ha
    obtain ⟨-, rfl⟩ := Action.pure_eq_ok.mp ha
    have hent : EnteredDocument w₂ (root :: rs) e w₃ := enteredDocument hc₂.wellFormed he.isRoot he.fresh h₃
    obtain ⟨g₃, hg₃, -⟩ := hent.frame
    obtain ⟨m, hm, hx, -⟩ := hamid.hangs hc₂
    refine ⟨left, hamid.of_around hc₂ hent.around ?_, hcount, fun hne => (hu hne).trans ?_⟩
    · obtain ⟨f', hlast, -⟩ := id hamid
      rw [hg₃]
      obtain ⟨y, ys, hy⟩ := List.exists_cons_of_ne_nil (List.ne_nil_of_mem (List.mem_of_getLast? hlast))
      rw [hy]
      exact List.getLast?_cons_cons
    · exact untouched_enter hc₂.wellFormed hx he hm h₃

/-- In the round behind the state `w`, the walk comes to the node `x`. -/
def ComesTo (o : Options) (w : Walk) (x : NodeId) : Prop := ∃ g r w₁, TakesUp o w g r w₁ ∧ r.next = some x

/-- The walk comes to the field only if it owes it. -/
theorem Coherent.due_of_comesTo (hc : Coherent even w roots) (h : Amid w outer l x way due) (hcomes : ComesTo o w x) :
    0 < due := by
  obtain ⟨g, r, _, ⟨w₁, f, more, hrot, hf, ht, -⟩, hn⟩ := hcomes
  obtain ⟨hc₁, -, -⟩ := hc.rotate hrot
  obtain ⟨hamid, -⟩ := hc.amid_rotate h hrot
  have hstack := hc₁.stack
  rw [hf] at hstack
  obtain ⟨root, rs, rfl⟩ := hstack.roots_cons
  obtain ⟨p, hvisiting, -⟩ := hc₁.aboutToVisit hf ht hn
  rcases hamid.cases hf with ⟨-, -, hin, howed⟩ | ⟨f', hm, -, -, hin, -⟩
  · rw [← howed, owed_takeRun ht, hn]
    have hpos : 0 < (onwards w₁.space.tree x).countP (· ∈ way) :=
      List.countP_pos_iff.mpr ⟨x, List.mem_cons_self, decide_eq_true hin.way.mem⟩
    exact Nat.lt_of_lt_of_le hpos (Nat.le_add_right _ _)
  · obtain ⟨m, hmr, -, hx⟩ := hstack.tail.hangs hm hin
    exact absurd .self (hvisiting.not_under_root hx hmr hvisiting.parent?)

/-- What a round takes up. -/
theorem TakesUp.unique {g' : Frame} {r' : Run} (h : TakesUp o w g r w') (hrot : rotate o w = .ok u w₁)
    (hf : w₁.frames = f :: more) (ht : takeRun f = some (r', g')) : r = r' := by
  obtain ⟨w₂, f₂, more₂, hrot₂, hf₂, ht₂, -⟩ := h
  rw [hrot] at hrot₂
  cases hrot₂
  rw [hf] at hf₂
  cases hf₂
  rw [ht] at ht₂
  cases ht₂
  rfl

/-- The loops around a run are asked, but not the loop itself. -/
theorem Coherent.amid_closeLoops (hc : Coherent even w (root :: rs)) (h : Amid w outer l x way due)
    (hs : NeverWaits w x) (hf : w.frames = f :: more) (ht : takeRun f = some (r, g)) (hn : r.next = none)
    (hno : more = [] → ∀ g' k w₁, Asks o { w with frames := g :: more } (w.space.tree.ancestors r.first) k.anchor w₁ →
      w₁.frames = g' :: more → g'.loops ≠ k :: outer)
    (hl : closeLoops o (w.space.tree.ancestors r.first) { w with frames := g :: more } = .ok u w') :
    Amid w' outer l x way due ∧ Untouched w.space.tree w'.space.tree x := by
  obtain ⟨hsame, hloops, -⟩ := hc.visiting hf ht
  obtain ⟨p, hended⟩ := hc.runEnded hf ht
  obtain ⟨m, -, hx, -⟩ := h.hangs hc
  refine ⟨?_, hended.untouched hc.wellFormed hx hs hl⟩
  have hstack := hc.stack
  rw [hf] at hstack
  rcases h.cases hf with ⟨rfl, hsees, hin, howed⟩ | ⟨f', hm, hlast, hsees, hin, howed⟩
  · have hing : AmidIn w.space.tree g outer l x way := hin.of_kept hloops fun _ _ => ⟨rfl, rfl⟩
    obtain ⟨g', hg', hsame', hspared⟩ := hended.spared hing (hno rfl) hl
    refine ⟨g', by rw [hg']; rfl, (hsame'.sees.trans hsame.sees).trans hsees, hspared.amid, ?_⟩
    rw [hspared.owed, ← howed, owed_takeRun ht, hn]
    exact (Nat.zero_add _).symm
  · obtain ⟨g', hg', -⟩ := (asked_closeLoops hended hstack.head.2.2.1 hl).frame
    obtain ⟨hin', howed'⟩ :=
      hstack.tail.amid_of_around hc.wellFormed (asked_closeLoops hended hstack.head.2.2.1 hl).around hm hin
    refine ⟨f', ?_, hsees, hin', howed'.trans howed⟩
    rw [hg', ← hlast]
    obtain ⟨y, ys, rfl⟩ := List.exists_cons_of_ne_nil (List.ne_nil_of_mem hm)
    exact List.getLast?_cons_cons

section

variable (hc : Coherent even w roots) (hi : Intact w) (heven : even) (h : Amid w outer l x way due)
  (heval : w.space.tree.attr? x "eval" ≠ some "lazy")

include hc hi heven h heval

/-- A round that does not ask the loop: it takes the field off what is owed if it comes to it, and otherwise it leaves
    the field alone. -/
theorem Coherent.amid_round (hno : ∀ f k w₁, ¬ AsksAgain o w outer f k w₁) (hr : Walk.round o w = .ok progress w') :
    ∃ left, Amid w' outer l x way left ∧ (ComesTo o w x → left + 1 = due)
      ∧ (¬ ComesTo o w x → left = due ∧ Untouched w.space.tree w'.space.tree x) := by
  obtain ⟨w₁, h₁, hr⟩ := round_ok hr
  obtain ⟨hc₁, -, hrot⟩ := hc.rotate h₁
  obtain ⟨hamid₁, hu₁⟩ := hc.amid_rotate h h₁
  have hs₁ : NeverWaits w₁ x := hc₁.neverWaits (hc.intact_rotate hi h₁) heven (by rw [hu₁.attr?]; exact heval)
  rcases hr with ⟨hf, -⟩ | ⟨f, more, hf, hr⟩
  · obtain ⟨f, hlast, -⟩ := hamid₁
    rw [hf] at hlast
    cases hlast
  have hstack := hc₁.stack
  rw [hf] at hstack
  obtain ⟨root, rs, rfl⟩ := hstack.roots_cons
  rcases hr with ⟨ht, -, hr⟩ | ⟨r, g, ht, ⟨n, hn, hr⟩ | ⟨hn, -, hr⟩⟩
  · obtain ⟨hamid, hu⟩ := hc₁.amid_leave hamid₁ hs₁ hf ht hrot hr
    refine ⟨due, hamid, fun hcomes => ?_, fun _ => ⟨rfl, hu₁.trans hu⟩⟩
    obtain ⟨g, r, w₂, ⟨w₃, f₃, more₃, hrot₃, hf₃, ht₃, -⟩, -⟩ := hcomes
    rw [h₁] at hrot₃
    cases hrot₃
    rw [hf] at hf₃
    cases hf₃
    rw [ht] at ht₃
    cases ht₃
  · obtain ⟨left, hamid, hcount, hu⟩ := hc₁.amid_advance hamid₁ hs₁ hf ht hrot hn hr
    refine ⟨left, hamid, fun ⟨g', r', w₂, htakes, hx⟩ => ?_, fun hnot => ?_⟩
    · rw [htakes.unique h₁ hf ht, hn] at hx
      rw [if_pos (Option.some.inj hx)] at hcount
      exact hcount
    · have hne : n ≠ x := fun he => hnot ⟨g, r, _, ⟨w₁, f, more, h₁, hf, ht, rfl⟩, he ▸ hn⟩
      rw [if_neg hne] at hcount
      exact ⟨hcount, hu₁.trans (hu hne)⟩
  · have hno₁ : more = [] → ∀ g' k w₂, Asks o { w₁ with frames := g :: more } (w₁.space.tree.ancestors r.first)
        k.anchor w₂ → w₂.frames = g' :: more → g'.loops ≠ k :: outer := by
      rintro rfl g' k w₂ hasks hg' hloops
      exact hno g' k w₂ ⟨g, r, _, ⟨w₁, f, [], h₁, hf, ht, rfl⟩, hn, hasks, hg', hloops⟩
    obtain ⟨hamid, hu⟩ := hc₁.amid_closeLoops hamid₁ hs₁ hf ht hn hno₁ hr
    refine ⟨due, hamid, fun ⟨g', r', w₂, htakes, hx⟩ => ?_, fun _ => ⟨rfl, hu₁.trans hu⟩⟩
    rw [htakes.unique h₁ hf ht, hn] at hx
    cases hx

/-- In a round that asks the loop, the walk has come to the field, and up to then it leaves the field alone. -/
theorem Coherent.amid_asks (ha : AsksAgain o w outer f k w₁) :
    k = l ∧ due = 0 ∧ AmidIn w₁.space.tree f outer l x way ∧ Untouched w.space.tree w₁.space.tree x
      ∧ f.seesSecondary = true ∧ ∃ root q, AtLoopEnd w₁ f [] root l.anchor q l outer := by
  obtain ⟨g, r, w₀, ⟨w₂, f₂, more, hrot, hf₂, htake, rfl⟩, hn, hasks, hf, hl⟩ := ha
  obtain ⟨hc₂, -, -⟩ := hc.rotate hrot
  obtain ⟨hamid₂, hu₂⟩ := hc.amid_rotate h hrot
  have hs₂ : NeverWaits w₂ x := hc₂.neverWaits (hc.intact_rotate hi hrot) heven (by rw [hu₂.attr?]; exact heval)
  obtain ⟨m, -, hx, -⟩ := hamid₂.hangs hc₂
  have hstack := hc₂.stack
  rw [hf₂] at hstack
  obtain ⟨root, rs, rfl⟩ := hstack.roots_cons
  obtain ⟨hsame, hloops, -⟩ := hc₂.visiting hf₂ htake
  obtain ⟨p, hended⟩ := hc₂.runEnded hf₂ htake
  rcases hamid₂.cases hf₂ with ⟨rfl, hsees, hin, howed⟩ | ⟨f', hm, -⟩
  · have hing : AmidIn w₂.space.tree g outer l x way := hin.of_kept hloops fun _ _ => ⟨rfl, rfl⟩
    obtain ⟨rfl, hspared, hzero, hsame', q, hat⟩ := hended.spared_asks hing hasks hf hl
    have hu := (hended.untouched_asks hc₂.wellFormed hx hs₂ hasks hf hl).untouched
    have hat' : AtLoopEnd w₁ f [] root k.anchor q k outer := hat
    refine ⟨rfl, ?_, hspared.amid, hu₂.trans hu, (hsame'.sees.trans hsame.sees).trans hsees, root, q, hat'⟩
    rw [← howed, owed_takeRun htake, hn]
    exact (Nat.zero_add _).trans hzero
  · -- the documents around the innermost one are walked on after it
    obtain ⟨_, g', _, _, -, -, hg', -⟩ := hended.asks_induct (P := fun _ _ _ _ => True) trivial hasks
      fun _ _ _ _ => trivial
    rw [hf] at hg'
    obtain ⟨-, rfl⟩ := List.cons.inj hg'
    cases hm

end

/-- A run of a loop begins: the walk is to come once to each field in the body. -/
theorem AmidIn.begun {S S' : Loop.Turn} (hwf : S.tree.WellFormed) (hroot : IsRoot S.tree root)
    (hp : S.tree.parent? S.loop.anchor = some q) (hs : Standing S.tree root q S.loop.key outer S.scan)
    (hc : Continues S q S') (hw : Way S'.tree S'.loop.anchor x way) (hname : S'.tree.name x = "item")
    (hf : f.run = none) :
    AmidIn S'.tree { f with scan := S'.scan, loops := S'.loop :: outer } outer S'.loop x way
      ∧ owed S'.tree { f with scan := S'.scan, loops := S'.loop :: outer } way = 1 := by
  obtain ⟨first, hscan, hfirst⟩ := hc.begins
  refine ⟨⟨⟨[], rfl⟩, hw, hname⟩, ?_⟩
  exact hw.owed_begun (f := { f with scan := S'.scan, loops := S'.loop :: outer }) hc.advanced.wellFormed rfl
    hc.advanced.parent hf rfl hscan hfirst (standing_of_advanced hwf hroot.live hp hc.advanced hs)

/-- A round in which the loop goes on. -/
theorem AtLoopEnd.amid_again (hat : AtLoopEnd w₁ f [] root a q l outer) (hsees : f.seesSecondary = true)
    (ha : AsksAgain o w outer f l w₁) (ht : turn f l w₁ = .ok (true, l') w₂)
    (hw : Way w₂.space.tree l'.anchor x way) (hname : w₂.space.tree.name x = "item")
    (hr : Walk.round o w = .ok progress w') : Amid w' outer l' x way 1 := by
  obtain ⟨S, rfl, hcont, htree, rfl⟩ := hat.round_again ha ht hr
  rw [htree] at hw hname
  have hpa : w₁.space.tree.parent? l.anchor = some q := by rw [hat.anchor, hat.parent]
  obtain ⟨hin, howed⟩ := AmidIn.begun (f := f) hat.wellFormed hat.isRoot hpa hat.standing hcont hw hname hat.idle
  refine ⟨_, rfl, hsees, ?_, ?_⟩
  · show AmidIn w₂.space.tree _ outer S.loop x way
    rw [htree]
    exact hin
  · show owed w₂.space.tree _ way = 1
    rw [htree]
    exact howed

/-- A round in which the loop begins. -/
theorem Coherent.amid_first (hc : Coherent even w roots) (ha : AsksFirst o w n f l w₁) (hsees : f.seesSecondary = true)
    (hw : Way w₁.space.tree n x way) (hname : w₁.space.tree.name x = "item")
    (ht : turn f l w₁ = .ok (true, l') w₂) (hr : Walk.round o w = .ok progress w') :
    Amid w' f.loops l' x way 1 ∧ w'.space.tree = w₁.space.tree := by
  obtain ⟨root, more, p, S, hat, hmore, hidle, rfl, hcont, htree₂, htree, hanchor, rfl⟩ := hc.round_first ha ht hr
  cases hmore hsees
  rw [← htree, ← hanchor] at hw
  rw [← htree] at hname
  obtain ⟨hin, howed⟩ := AmidIn.begun (f := f) hat.wellFormed hat.isRoot (by rw [hat.anchor]; exact hat.parent)
    hat.standing hcont hw hname hidle
  rw [htree] at hin howed
  refine ⟨⟨_, rfl, hsees, ?_, ?_⟩, htree₂⟩
  · show AmidIn w₂.space.tree _ f.loops S.loop x way
    rw [htree₂]
    exact hin
  · show owed w₂.space.tree _ way = 1
    rw [htree₂]
    exact howed

end Stencil.Walk
