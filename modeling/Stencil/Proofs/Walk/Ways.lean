/-
  What a walk comes to, and when.

  The nodes that a walk comes to from where it is, before one of its loops is asked again, are the siblings behind
  the positions on its scan, behind its run and behind its loops (`pending`).  A group that it comes to makes way
  for its children.  So a field that stands in groups in the body of a loop is due as long as one node of the way
  to it is pending (`Way`):

    1. Of the children of a node one is on the way, if the node is, and otherwise none is (`Way.countP_children`).
    2. When a run begins, the way is due once.  When the run has ended, it is not due any more
       (`Way.owed_begun`, `Way.owed_ended`).
    3. What is pending depends on the lists of siblings that the walk stands in (`pending_congr`).
    4. In a copy of `a` there is a copy of the field, and a way to it (`Way.exists_twin`, `Way.of_twin`).
-/
import Stencil.Proofs.Meaning.Surroundings
import Stencil.Proofs.Walk.Copied

set_option autoImplicit false

namespace Stencil.Walk

open Stencil.Tree (Under Inner)

variable {t t' : Tree} {root p q n a x y c : NodeId} {r : Run} {f g : Frame} {l : Loop} {inner outer : List Loop}
  {key : String} {scan : List Position} {way : List NodeId}

/-! ## Ways -/

/-- The way from `a` down to `x`, which is a child of `a` or stands in groups below: the nodes on it, `x` the last. -/
inductive Way (t : Tree) : NodeId → NodeId → List NodeId → Prop
  | child {a x : NodeId} (parent : t.parent? x = some a) : Way t a x [x]
  | group {a g x : NodeId} {way : List NodeId} (parent : t.parent? g = some a) (name : t.name g = "items")
      (below : Way t g x way) : Way t a x (g :: way)

namespace Way

theorem mem (h : Way t a x way) : x ∈ way := by
  induction h with
  | child => exact List.mem_cons_self
  | group _ _ _ ih => exact List.mem_cons_of_mem _ ih

/-- A node on the way stands between its ends. -/
theorem between (h : Way t a x way) (hy : y ∈ way) : Under t a y ∧ Under t y x := by
  induction h generalizing y with
  | child hp =>
    rw [List.mem_singleton.mp hy]
    exact ⟨Tree.under_of_parent hp, .self⟩
  | group hp _ hw ih =>
    rcases List.mem_cons.mp hy with rfl | hy
    · exact ⟨Tree.under_of_parent hp, (ih hw.mem).1⟩
    · exact ⟨(Tree.under_of_parent hp).trans (ih hy).1, (ih hy).2⟩

theorem under (h : Way t a x way) : Under t a x := (h.between h.mem).1

/-- The nodes around a field on the way are groups. -/
theorem name_of_ne (h : Way t a x way) (hy : y ∈ way) (hne : y ≠ x) : t.name y = "items" := by
  induction h with
  | child => exact absurd (List.mem_singleton.mp hy) hne
  | group _ hname _ ih =>
    rcases List.mem_cons.mp hy with rfl | hy
    · exact hname
    · exact ih hy hne

/-- What is on the way keeps its place where parents and names are kept. -/
theorem of_kept (h : Way t a x way) (hk : ∀ y ∈ way, t'.parent? y = t.parent? y ∧ t'.name y = t.name y) :
    Way t' a x way := by
  induction h with
  | child hp => exact .child ((hk _ List.mem_cons_self).1.trans hp)
  | group hp hname _ ih =>
    obtain ⟨hp', hname'⟩ := hk _ List.mem_cons_self
    exact .group (hp'.trans hp) (hname'.trans hname) (ih fun y hy => hk y (List.mem_cons_of_mem _ hy))

/-- The nodes on the way to a field stand on a trunk that comes to `a`. -/
theorem parent_inner (h : Way t a x way) (ha : Inner t root a) (hy : y ∈ way) :
    ∃ q, t.parent? y = some q ∧ Inner t root q := by
  induction h with
  | child hp =>
    rw [List.mem_singleton.mp hy]
    exact ⟨_, hp, ha⟩
  | group hp hname _ ih =>
    rcases List.mem_cons.mp hy with rfl | hy
    · exact ⟨_, hp, ha⟩
    · exact ih (.step ha hp (.inl hname)) hy

section

variable (hwf : t.WellFormed) (h : Way t a x way)

include hwf h

theorem ne_start (hy : y ∈ way) : y ≠ a := by
  rintro rfl
  induction h with
  | child hp =>
    rw [List.mem_singleton] at hy
    exact hwf.parent_ne hp hy
  | group hp _ hw _ =>
    rcases List.mem_cons.mp hy with he | hy
    · exact hwf.parent_ne hp he
    · exact hwf.not_under_parent hp (hw.between hy).1

/-- What stands strictly below `a` and not below the end of the way is on it. -/
theorem mem_of_between (ha : Under t a y) (hne : y ≠ a) (hx : Under t y x) : y ∈ way := by
  induction h with
  | @child a x hp =>
    -- between a node and its parent there is none
    by_cases hyx : y = x
    · exact hyx ▸ List.mem_cons_self
    · exact absurd (hwf.under_antisymm (hx.of_parent hp (Ne.symm hyx)) ha) hne
  | @group a g x way hp hname hw ih =>
    by_cases hyg : y = g
    · exact hyg ▸ List.mem_cons_self
    · rcases hx.comparable hw.under with hyg' | hgy
      · exact absurd (hwf.under_antisymm (hyg'.of_parent hp (Ne.symm hyg)) ha) hne
      · exact List.mem_cons_of_mem _ (ih hgy hyg hx)

/-- A node on the way stands below `a`, or below a group on the way. -/
theorem parent_of_mem (hy : y ∈ way) : ∃ q, t.parent? y = some q ∧ (q = a ∨ q ∈ way ∧ q ≠ x) := by
  induction h with
  | child hp =>
    rw [List.mem_singleton.mp hy]
    exact ⟨_, hp, .inl rfl⟩
  | @group a g x way hp hname hw ih =>
    rcases List.mem_cons.mp hy with rfl | hy
    · exact ⟨a, hp, .inl rfl⟩
    · obtain ⟨q, hq, hqg | ⟨hqw, hqx⟩⟩ := ih hy
      · refine ⟨q, hq, .inr ⟨hqg ▸ List.mem_cons_self, ?_⟩⟩
        rintro rfl
        exact hw.ne_start hwf hw.mem hqg
      · exact ⟨q, hq, .inr ⟨List.mem_cons_of_mem _ hqw, hqx⟩⟩

/-- Of the children of `a`, and of a group on the way, exactly one is on the way. -/
theorem countP_children (hq : q = a ∨ q ∈ way ∧ q ≠ x) : (t.children q).countP (· ∈ way) = 1 := by
  -- one child is listed once
  have hone : ∀ {c q : NodeId} {way' : List NodeId}, t.parent? c = some q → (∀ y ∈ t.children q, y ∈ way' ↔ y = c) →
      (t.children q).countP (· ∈ way') = 1 := by
    intro c q way' hc hiff
    refine (List.countP_congr fun y hy => ?_).trans
      (List.count_eq_one_of_mem (hwf.children_nodup q) (hwf.mem_children.mpr hc))
    rw [decide_eq_true_iff, beq_iff_eq]
    exact hiff y hy
  induction h with
  | @child a x hp =>
    rcases hq with rfl | ⟨hq, hne⟩
    · exact hone hp fun y _ => List.mem_singleton
    · exact absurd (List.mem_singleton.mp hq) hne
  | @group a g x way hp hname hw ih =>
    by_cases hqa : q = a
    · subst hqa
      refine hone hp fun y hy => ⟨fun hm => ?_, fun he => he ▸ List.mem_cons_self⟩
      refine (List.mem_cons.mp hm).resolve_right fun hm => ?_
      have hgy := (hw.between hm).1
      have hne := hw.ne_start hwf hm
      exact hne (hwf.siblings_disjoint (hwf.mem_children.mp hy) hp .self hgy)
    · obtain ⟨hqw, hqx⟩ := hq.resolve_left hqa
      -- the group itself is not below one on the way
      have hdrop : ∀ y ∈ t.children q, (decide (y ∈ g :: way) = true ↔ decide (y ∈ way) = true) := by
        intro y hy
        simp only [decide_eq_true_eq, List.mem_cons]
        refine or_iff_right ?_
        rintro rfl
        exact hqa (Option.some.inj ((hwf.mem_children.mp hy).symm.trans hp))
      rw [List.countP_congr hdrop]
      exact ih ((List.mem_cons.mp hqw).imp_right fun hqw => ⟨hqw, hqx⟩)

/-- Of the children of other nodes none is on the way. -/
theorem countP_eq_zero {ns : List NodeId} (hns : ∀ y ∈ ns, t.parent? y = some q) (hqa : q ≠ a)
    (hq : q ∈ way → q = x) : ns.countP (· ∈ way) = 0 := by
  refine List.countP_eq_zero.mpr fun y hy hm => ?_
  obtain ⟨q', hq', hmem⟩ := h.parent_of_mem hwf (of_decide_eq_true hm)
  obtain rfl := Option.some.inj ((hns y hy).symm.trans hq')
  rcases hmem with he | ⟨hmem, hne⟩
  · exact hqa he
  · exact hne (hq hmem)

end

end Way

/-! ## Copies -/

namespace Way

variable {a' x' : NodeId} {es : List Element}

/-- A field stands in `a`, or in a group to which there is a way. -/
theorem eq_or_group (h : Way t a x way) (hp : t.parent? x = some p) :
    p = a ∨ t.name p = "items" ∧ ∃ before, Way t a p before := by
  induction h with
  | child hx => exact .inl (Option.some.inj (hp.symm.trans hx))
  | @group a g x way hg hname _ ih =>
    rcases ih hp with rfl | ⟨hgroup, before, hbefore⟩
    · exact .inr ⟨hname, _, .child hg⟩
    · exact .inr ⟨hgroup, _, .group hg hname hbefore⟩

theorem append (h : Way t a p way) (hname : t.name p = "items") (hp : t.parent? x = some p) :
    Way t a x (way ++ [x]) := by
  induction h with
  | child ha => exact .group ha hname (.child hp)
  | group hg hgroup _ ih => exact .group hg hgroup (ih hname hp)

/-- What is found in a copy on the same way down is a copy of the field. -/
theorem of_twin (h : Way t a x way) (hwf : t.WellFormed) (hwf' : t'.WellFormed)
    (hes : Tree.HoldsAll t (t.children a) es) (hes' : Tree.HoldsAll t' (t'.children a') es)
    (ht : Tree.Twin t t' a a' x x') : (∃ way', Way t' a' x' way') ∧ Meaning.Twin t t' x x' := by
  -- a node is not its own descendant
  have hself : ∀ {y'}, Tree.Twin t t' a a' a y' → y' = a' := fun hy => by
    cases hy with
    | root => rfl
    | child hq hc _ =>
      have hpc := hwf.mem_children.mp (List.mem_of_getElem? hc)
      exact absurd (hq.under hwf) (hwf.not_under_parent hpc)
  induction ht generalizing way with
  | root => exact absurd rfl (h.ne_start hwf h.mem)
  | @child p p' c c' i hp hc hc' ih =>
    have hcp := hwf.mem_children.mp (List.mem_of_getElem? hc)
    have hcp' := hwf'.mem_children.mp (List.mem_of_getElem? hc')
    rcases h.eq_or_group hcp with rfl | ⟨hname, before, hbefore⟩
    · obtain rfl := hself hp
      have hlt : i < es.length := by
        rw [← hes.length_eq]
        exact (List.getElem?_eq_some_iff.mp hc).1
      exact ⟨⟨_, .child hcp'⟩, es[i], hes.get hc (List.getElem?_eq_getElem hlt),
        hes'.get hc' (List.getElem?_eq_getElem hlt)⟩
    · obtain ⟨⟨before', hbefore'⟩, htwin⟩ := ih hbefore
      obtain ⟨e, he, he'⟩ := id htwin
      have hlt : i < e.children.length := by
        rw [← he.children.length_eq]
        exact (List.getElem?_eq_some_iff.mp hc).1
      exact ⟨⟨_, hbefore'.append (htwin.name.trans hname) hcp'⟩, e.children[i],
        he.children.get hc (List.getElem?_eq_getElem hlt), he'.children.get hc' (List.getElem?_eq_getElem hlt)⟩

/-- In a copy there is a copy of the field. -/
theorem exists_twin (h : Way t a x way) (hwf : t.WellFormed) (hes : Tree.HoldsAll t (t.children a) es)
    (hes' : Tree.HoldsAll t' (t'.children a') es) : ∃ x', Tree.Twin t t' a a' x x' := by
  have hchild : ∀ {y}, t.parent? y = some a → ∃ y', Tree.Twin t t' a a' y y' ∧ Meaning.Twin t t' y y' := fun hy => by
    obtain ⟨i, hi⟩ := List.mem_iff_getElem?.mp (hwf.mem_children.mpr hy)
    have hlt := (List.getElem?_eq_some_iff.mp hi).1
    rw [hes.length_eq] at hlt
    have hlt' : i < (t'.children a').length := by
      rw [hes'.length_eq]
      exact hlt
    have hi' := List.getElem?_eq_getElem hlt'
    exact ⟨_, .child .root hi hi', es[i], hes.get hi (List.getElem?_eq_getElem hlt),
      hes'.get hi' (List.getElem?_eq_getElem hlt)⟩
  cases h with
  | child hp => exact (hchild hp).imp fun _ hx => hx.1
  | group hp _ hbelow =>
    obtain ⟨g', hg, e, he, he'⟩ := hchild hp
    exact (Tree.Twin.exists_of_under hbelow.under hwf he he').imp fun _ hx => hg.trans hx

end Way

/-! ## What is pending -/

/-- A node and the siblings behind it. -/
def onwards (t : Tree) (n : NodeId) : List NodeId := n :: t.followingSiblings n

/-- The nodes that the walk of a document comes to from where it is. -/
def pending (t : Tree) (f : Frame) : List NodeId :=
  (f.run.bind Run.next).elim [] (onwards t) ++ (f.scan.flatMap fun pos => onwards t pos.node)
    ++ f.loops.flatMap fun l => t.followingSiblings l.anchor

/-- How many of the nodes on a way are pending. -/
def owed (t : Tree) (f : Frame) (way : List NodeId) : Nat := (pending t f).countP (· ∈ way)

/-- With the run that comes next, its nodes are taken off. -/
theorem pending_takeRun (h : takeRun f = some (r, g)) :
    pending t f = r.next.elim [] (onwards t) ++ pending t g := by
  unfold pending
  rcases takeRun_eq_some h with ⟨hrun, rfl⟩ | ⟨pos, scan, hrun, hscan, rfl, rfl⟩
  · simp [hrun]
  · simp [hrun, hscan]

theorem owed_takeRun (h : takeRun f = some (r, g)) :
    owed t f way = (r.next.elim [] (onwards t)).countP (· ∈ way) + owed t g way := by
  unfold owed
  rw [pending_takeRun h, List.countP_append]

theorem owed_scan_cons {pos : Position} (hf : f.run = none) (hs : f.scan = pos :: scan) :
    owed t f way = (onwards t pos.node).countP (· ∈ way) + owed t { f with scan } way := by
  unfold owed pending
  simp [hf, hs, List.countP_append]

theorem owed_loops_cons (hl : f.loops = l :: outer) :
    owed t f way = (t.followingSiblings l.anchor).countP (· ∈ way) + owed t { f with loops := outer } way := by
  unfold owed pending
  simp only [hl, List.flatMap_cons, List.countP_append]
  omega

section

variable (hwf : t.WellFormed)

include hwf

theorem onwards_nextSibling? (h : t.nextSibling? n = some c) : onwards t c = t.followingSiblings n :=
  (hwf.followingSiblings_nextSibling? h).symm

theorem onwards_firstChild? (h : t.firstChild? p = some c) : onwards t c = t.children p := by
  obtain ⟨after, hs⟩ := List.head?_eq_some_iff.mp h
  unfold onwards
  rw [hwf.followingSiblings_of_split (x := []) hs, hs]

theorem followingSiblings_of_last (hp : t.parent? n = some p) (h : t.nextSibling? n = none) :
    t.followingSiblings n = [] := by
  obtain ⟨before, after, hs⟩ := hwf.exists_split hp
  rw [hwf.nextSibling?_of_split hs, List.head?_eq_none_iff] at h
  rw [hwf.followingSiblings_of_split hs, h]

/-- What comes behind a node, taken as a run. -/
theorem elim_nextSibling? (hp : t.parent? n = some p) :
    (t.nextSibling? n).elim [] (onwards t) = t.followingSiblings n := by
  cases h : t.nextSibling? n with
  | none => exact (followingSiblings_of_last hwf hp h).symm
  | some c => exact onwards_nextSibling? hwf h

theorem parent?_of_mem_onwards (hp : t.parent? n = some p) (hy : y ∈ onwards t n) : t.parent? y = some p := by
  rcases List.mem_cons.mp hy with rfl | hy
  · exact hp
  · obtain ⟨q, hq, hy, -⟩ := hwf.mem_followingSiblings hy
    rw [hy, ← hq, hp]

/-- What is pending depends on the lists of siblings that the walk stands in. -/
theorem pending_congr (hwf' : t'.WellFormed)
    (h : ∀ n ∈ nodesOf f, ∃ q, t.parent? n = some q ∧ t'.children q = t.children q) : pending t' f = pending t f := by
  have hsame : ∀ n ∈ nodesOf f, t'.followingSiblings n = t.followingSiblings n := fun n hn => by
    obtain ⟨q, hq, hc⟩ := h n hn
    have hq' : t'.parent? n = some q := by
      rw [← hwf'.mem_children, hc]
      exact hwf.mem_children.mpr hq
    refine Meaning.followingSiblings_congr (hq'.trans hq.symm) fun p hp => ?_
    rw [← Option.some.inj (hq.symm.trans hp)]
    exact hc
  have honwards : ∀ n ∈ nodesOf f, onwards t' n = onwards t n := fun n hn => congrArg (n :: ·) (hsame n hn)
  have hrun : (f.run.bind Run.next).elim [] (onwards t') = (f.run.bind Run.next).elim [] (onwards t) := by
    cases hr : f.run with
    | none => rfl
    | some r =>
      cases hn : r.next with
      | none => simp [hn]
      | some n =>
        simp only [Option.bind_some, hn, Option.elim_some]
        refine honwards n (List.mem_append_left _ (List.mem_append_right _ ?_))
        rw [hr]
        exact List.mem_cons_of_mem _ (Option.mem_toList.mpr hn)
  have hscan : ∀ pos ∈ f.scan, onwards t' pos.node = onwards t pos.node := fun pos hpos =>
    honwards _ (List.mem_append_left _ (List.mem_append_left _ (List.mem_map_of_mem hpos)))
  have hloops : ∀ l ∈ f.loops, t'.followingSiblings l.anchor = t.followingSiblings l.anchor := fun l hl =>
    hsame _ (List.mem_append_right _ (List.mem_map_of_mem hl))
  unfold pending
  rw [hrun, List.flatMap_congr hscan, List.flatMap_congr hloops]

/-- A change that the walk of a document does not notice. -/
theorem pending_of_placed (hwf' : t'.WellFormed) (hp : Placed t root f)
    (h : ∀ q, Inner t root q → t'.children q = t.children q) : pending t' f = pending t f := by
  refine pending_congr hwf hwf' fun n hn => ?_
  obtain ⟨q, hq, hi⟩ := hp.mem_nodesOf hwf hn
  exact ⟨q, hq, h q hi⟩

/-- A change among the children of `p` or below. -/
theorem pending_of_standing (hwf' : t'.WellFormed) (hf : f.run = none) (hs : Standing t root p key f.loops f.scan)
    (h : ∀ q, Under t q p → q ≠ p → t'.children q = t.children q) : pending t' f = pending t f := by
  refine pending_congr hwf hwf' fun n hn => ?_
  unfold nodesOf at hn
  rw [hf, Option.elim_none, List.append_nil] at hn
  obtain ⟨q, hq, -, hu, hne⟩ := hs.outside hwf hn
  exact ⟨q, hq, h q hu hne⟩

namespace Way

variable (h : Way t a x way)

include h

/-- Beside `a` and behind it nothing is on the way. -/
theorem countP_following (hp : t.parent? a = some p) : (t.followingSiblings a).countP (· ∈ way) = 0 := by
  refine h.countP_eq_zero hwf (q := p) (fun y hy => parent?_of_mem_onwards hwf hp (List.mem_cons_of_mem _ hy))
    (hwf.parent_ne hp) fun hm => ?_
  exact absurd (h.between hm).1 (hwf.not_under_parent hp)

/-- Where a walk stands beside `a`, it owes no node on the way. -/
theorem owed_beside (hp : t.parent? a = some p) (hf : f.run = none) (hs : Standing t root p key f.loops f.scan) :
    owed t f way = 0 := by
  have hout : ∀ n ∈ f.scan.map Position.node ++ f.loops.map Loop.anchor, (onwards t n).countP (· ∈ way) = 0 := by
    intro n hn
    obtain ⟨q, hq, -, hu, hne⟩ := hs.outside hwf hn
    have hnot : ¬ Under t a q := fun ha => hwf.not_under_parent hp (ha.trans hu)
    refine h.countP_eq_zero hwf (q := q) (fun y hy => parent?_of_mem_onwards hwf hq hy) ?_ fun hm => ?_
    · rintro rfl
      exact hnot .self
    · exact absurd (h.between hm).1 hnot
  unfold owed pending
  rw [hf]
  refine List.countP_eq_zero.mpr fun y hy hm => ?_
  -- each pending node is behind one that is kept for the walk
  have hkept : ∃ n ∈ f.scan.map Position.node ++ f.loops.map Loop.anchor, y ∈ onwards t n := by
    simp only [Option.bind_none, Option.elim_none, List.nil_append, List.mem_append, List.mem_flatMap] at hy
    rcases hy with ⟨pos, hpos, hy⟩ | ⟨l, hl, hy⟩
    · exact ⟨pos.node, List.mem_append_left _ (List.mem_map_of_mem hpos), hy⟩
    · exact ⟨l.anchor, List.mem_append_right _ (List.mem_map_of_mem hl), List.mem_cons_of_mem _ hy⟩
  obtain ⟨n, hn, hy⟩ := hkept
  exact List.countP_eq_zero.mp (hout n hn) y hy hm

/-- When a run of the loop of `a` has ended, the walk owes no node on the way. -/
theorem owed_ended (ha : l.anchor = a) (hp : t.parent? a = some p) (hf : f.run = none) (hl : f.loops = l :: outer)
    (hs : Standing t root p key outer f.scan) : owed t f way = 0 := by
  rw [owed_loops_cons hl, ha, h.countP_following hwf hp,
    h.owed_beside (f := { f with loops := outer }) hwf hp hf hs]

/-- When a run of the loop of `a` begins, the walk owes one. -/
theorem owed_begun {pos : Position} (ha : l.anchor = a) (hp : t.parent? a = some p) (hf : f.run = none)
    (hl : f.loops = l :: outer) (hscan : f.scan = pos :: scan) (hfirst : t.firstChild? a = some pos.node)
    (hs : Standing t root p key outer scan) : owed t f way = 1 := by
  rw [owed_scan_cons hf hscan, onwards_firstChild? hwf hfirst, h.countP_children hwf (.inl rfl),
    h.owed_ended (f := { f with scan }) hwf ha hp hf hl hs]

end Way

end

end Stencil.Walk
