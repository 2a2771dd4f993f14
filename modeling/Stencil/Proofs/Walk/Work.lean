/-
  What a walk still has to do.

  The nodes that a walk comes to next are the siblings behind the positions on its scan, behind its run and
  behind the loops that run.  Their weights, together with marks for the ends that are still to come, make the
  multiset `Work.ofFrame`.

    * Only groups and loops weigh something, the more the nearer they stand to the root.  So a group weighs
      more than all that is below it together: a multiset gets smaller when one of its members gives way to
      any number of smaller ones.
    * A loop weighs more than one of its further runs, and that weighs more than what is below the loop.
    * How near a node stands to the root is measured from below, against a depth that no group of the document
      reaches (`Bounded`).  Copies of a loop stand as deep as the loop.

  Where the lists of siblings that a walk comes to are kept, so is its work (`Work.ofFrame_congr`).
-/
import Mathlib.Data.Multiset.DershowitzManna
import Mathlib.Tactic.Abel
import Stencil.Proofs.Walk.Rounds
import Stencil.Proofs.Walk.Supply

set_option autoImplicit false

namespace Stencil

/-- The number of nodes above a node. -/
def Tree.depth (t : Tree) (n : NodeId) : Nat := (t.ancestors n).length

theorem Tree.depth_of_parent {t : Tree} {n p : NodeId} (hwf : t.WellFormed) (hp : t.parent? n = some p) :
    t.depth n = t.depth p + 1 := by
  unfold depth
  rw [hwf.ancestors_of_parent hp]
  rfl

namespace Walk

open Stencil.Tree (Under Inner KeepsShape depth_of_parent)
open Multiset (IsDershowitzMannaLT)

variable {t t' : Tree} {root n p q c : NodeId} {k : Nat} {s : Supply} {rs : List NodeId}
  {r : Run} {f g : Frame} {l : Loop} {loops : List Loop} {scan : List Position} {key : String}

/-- No group or loop of a document stands deeper. -/
def Bounded (t : Tree) (root : NodeId) (k : Nat) : Prop := ∀ q, Inner t root q → t.depth q ≤ k

theorem exists_bounded (hwf : t.WellFormed) (hl : t.Live root) : ∃ k, Bounded t root k :=
  ⟨t.nodes.size, fun _ hq =>
    Nat.le_of_lt (hwf.length_ancestorsWithin_lt (hwf.live_of_under hl hq.under) _)⟩

/-! ## Work -/

namespace Work

/-- The weight of a node that is still to be visited. -/
def weight (t : Tree) (k : Nat) (n : NodeId) : Nat :=
  if t.name n = "items" ∨ t.name n = "repeat" then 2 * (k - t.depth n) + 2 else 0

/-- The weight of a further run of the loop of a node. -/
def runWeight (t : Tree) (k : Nat) (n : NodeId) : Nat := 2 * (k - t.depth n) + 1

/-- The siblings behind a node, and their end. -/
def past (t : Tree) (k : Nat) (n : NodeId) : Multiset Nat :=
  0 ::ₘ ((t.followingSiblings n).map (weight t k) : List Nat)

/-- A node, the siblings behind it, and their end. -/
def ahead (t : Tree) (k : Nat) (n : NodeId) : Multiset Nat := weight t k n ::ₘ past t k n

/-- The work at the positions of a scan. -/
def ofScan (t : Tree) (k : Nat) (scan : List Position) : Multiset Nat :=
  (scan.map fun pos => ahead t k pos.node).sum

/-- The work of loops: what is behind them, and the runs that are due. -/
def ofLoops (t : Tree) (s : Supply) (k : Nat) (loops : List Loop) : Multiset Nat :=
  (loops.map fun l => past t k l.anchor
    + Multiset.replicate (Loop.due s l) (runWeight t k l.anchor)).sum

/-- The work of a run. -/
def ofRun (t : Tree) (k : Nat) (r : Run) : Multiset Nat :=
  match r.next with
  | some n => ahead t k n
  | none => {0}

/-- The work of a document: that of its run, of its scan and of its loops, and its end. -/
def ofFrame (t : Tree) (s : Supply) (k : Nat) (f : Frame) : Multiset Nat :=
  0 ::ₘ ((f.run.map (ofRun t k)).getD 0 + (ofScan t k f.scan + ofLoops t s k f.loops))

theorem ofScan_cons (pos : Position) (scan : List Position) :
    ofScan t k (pos :: scan) = ahead t k pos.node + ofScan t k scan := rfl

theorem ofLoops_cons (l : Loop) (loops : List Loop) :
    ofLoops t s k (l :: loops) = past t k l.anchor
      + Multiset.replicate (Loop.due s l) (runWeight t k l.anchor) + ofLoops t s k loops := rfl

/-- The work of a frame whose next run is taken. -/
theorem ofFrame_takeRun (h : takeRun f = some (r, g)) :
    ofFrame t s k f = ofRun t k r + ofFrame t s k g := by
  unfold ofFrame
  rcases takeRun_eq_some h with ⟨hrun, rfl⟩ | ⟨pos, scan, hrun, hscan, rfl, rfl⟩
  · rw [hrun]
    simp only [Option.map_some, Option.map_none, Option.getD_some, Option.getD_none, Multiset.add_cons, zero_add]
  · rw [hrun, hscan, ofScan_cons]
    simp only [Option.map_none, Option.getD_none, Multiset.add_cons, zero_add, add_assoc]
    rfl

/-! ### Lists of siblings -/

theorem ahead_next (h : t.nextSibling? n = some c) (hwf : t.WellFormed) :
    ahead t k c = past t k n := by
  unfold ahead past
  rw [hwf.followingSiblings_nextSibling? h, Multiset.cons_swap]
  rfl

theorem past_last (hwf : t.WellFormed) (hp : t.parent? n = some p) (h : t.nextSibling? n = none) :
    past t k n = {0} := by
  obtain ⟨before, after, hs⟩ := hwf.exists_split hp
  rw [hwf.nextSibling?_of_split hs, List.head?_eq_none_iff] at h
  unfold past
  rw [hwf.followingSiblings_of_split hs, h]
  rfl

/-- What follows behind a node is left of its run. -/
theorem ofRun_next (hwf : t.WellFormed) (hp : t.parent? n = some p) (r : Run) :
    ofRun t k { r with next := t.nextSibling? n } = past t k n := by
  unfold ofRun
  cases h : t.nextSibling? n with
  | none => exact (past_last hwf hp h).symm
  | some c => exact ahead_next h hwf

/-- A group or loop weighs more than a further run. -/
theorem runWeight_lt (h : t.name n = "items" ∨ t.name n = "repeat") : runWeight t k n < weight t k n := by
  unfold runWeight weight
  rw [if_pos h]
  exact Nat.lt_succ_self _

/-- A further run of a loop weighs more than each node below the loop. -/
theorem weight_lt (hwf : t.WellFormed) (hb : Bounded t root k) (hq : Inner t root q)
    (hp : t.parent? c = some q) : weight t k c < runWeight t k q := by
  unfold weight runWeight
  split
  · rename_i hname
    have hc := hb c (.step hq hp hname)
    rw [depth_of_parent hwf hp] at hc ⊢
    omega
  · exact Nat.succ_pos _

/-! ### Lighter work -/

/-- A member gives way to smaller ones, and others may go. -/
theorem lighter {X Y Z M N : Multiset Nat} {z : Nat} (hM : M = X + Y) (hN : N = X + z ::ₘ Z)
    (h : ∀ y ∈ Y, y < z) : IsDershowitzMannaLT M N :=
  ⟨X, Y, z ::ₘ Z, Multiset.cons_ne_zero, hM, hN, fun y hy => ⟨z, Multiset.mem_cons_self z Z, h y hy⟩⟩

/-! ### What it depends on -/

/-- The children of a node are in `t'` what they are in `t`, as far as a walk is concerned that comes to them. -/
structure Level (t t' : Tree) (q : NodeId) : Prop where
  children : t'.children q = t.children q
  name : ∀ c ∈ t.children q, t'.name c = t.name c
  attrs : ∀ c ∈ t.children q, (t'.node c).attrs = (t.node c).attrs
  repeatId : ∀ c ∈ t.children q, (t'.computed c).repeatId = (t.computed c).repeatId
  depth : t'.depth q = t.depth q

section

variable (hwf : t.WellFormed) (hwf' : t'.WellFormed)

include hwf hwf'

theorem Level.depth_child (h : Level t t' q) (hp : t.parent? c = some q) :
    t'.depth c = t.depth c := by
  have hp' : t'.parent? c = some q := by
    rw [← hwf'.mem_children, h.children]
    exact hwf.mem_children.mpr hp
  rw [depth_of_parent hwf hp, depth_of_parent hwf' hp', h.depth]

theorem Level.weight (h : Level t t' q) (hp : t.parent? c = some q) : weight t' k c = weight t k c := by
  unfold Work.weight
  rw [h.name c (hwf.mem_children.mpr hp), h.depth_child hwf hwf' hp]

theorem Level.past (h : Level t t' q) (hp : t.parent? c = some q) : past t' k c = past t k c := by
  obtain ⟨before, after, hs⟩ := hwf.exists_split hp
  unfold Work.past
  rw [hwf'.followingSiblings_of_split (h.children.trans hs), hwf.followingSiblings_of_split hs,
    List.map_congr_left fun x hx => h.weight hwf hwf' (hwf.mem_children.mp ?_)]
  rw [hs]
  exact List.mem_append_right _ (List.mem_cons_of_mem _ hx)

theorem Level.ahead (h : Level t t' q) (hp : t.parent? c = some q) : ahead t' k c = ahead t k c := by
  unfold Work.ahead
  rw [h.weight hwf hwf' hp, h.past hwf hwf' hp]

/-- The work at the scan and in the loops depends on the nodes strictly above where the walk stands. -/
theorem ofStanding_congr (hs : Standing t root p key loops scan)
    (h : ∀ q, Under t q p → q ≠ p → Level t t' q) :
    ofScan t' k scan = ofScan t k scan ∧ ofLoops t' s k loops = ofLoops t s k loops := by
  have hup : ∀ {p q}, t.parent? p = some q → (∀ m, Under t m p → m ≠ p → Level t t' m) →
      Level t t' q ∧ ∀ m, Under t m q → m ≠ q → Level t t' m := by
    intro p q hp h
    have hq : Under t q p := Tree.under_of_parent hp
    refine ⟨h q hq (hwf.parent_ne hp), fun m hm _ => h m (hm.trans hq) ?_⟩
    rintro rfl
    exact hwf.not_under_parent hp hm
  induction hs with
  | top => exact ⟨rfl, rfl⟩
  | group outer hp _ _ hb ih =>
    obtain ⟨hlevel, habove⟩ := hup hp h
    obtain ⟨hscan, hloops⟩ := ih habove
    refine ⟨?_, hloops⟩
    rw [ofScan_cons, ofScan_cons, hscan, hlevel.ahead hwf hwf' hb]
  | loop outer hp _ _ ha _ _ _ _ ih =>
    obtain ⟨hlevel, habove⟩ := hup hp h
    obtain ⟨hscan, hloops⟩ := ih habove
    refine ⟨hscan, ?_⟩
    subst ha
    rw [ofLoops_cons, ofLoops_cons, hloops, hlevel.past hwf hwf' hp, runWeight, runWeight,
      hlevel.depth_child hwf hwf' hp]

/-- The work of a document whose run has been taken. -/
theorem ofFrame_congr_of_idle (hf : f.run = none) (hs : Standing t root p key f.loops f.scan)
    (h : ∀ q, Under t q p → q ≠ p → Level t t' q) : ofFrame t' s k f = ofFrame t s k f := by
  obtain ⟨hscan, hloops⟩ := ofStanding_congr (s := s) hwf hwf' hs h
  unfold ofFrame
  rw [hf, hscan, hloops]
  rfl

/-- Where all lists of siblings on the trunk of a document are kept, so is its work. -/
theorem ofFrame_congr (hp : Placed t root f) (h : ∀ q, Inner t root q → Level t t' q)
    (hup : ∀ m q, Under t m q → Inner t root q → Inner t root m) :
    ofFrame t' s k f = ofFrame t s k f := by
  unfold Placed at hp
  unfold ofFrame
  cases hrun : f.run with
  | some r =>
    simp only [hrun] at hp
    obtain ⟨q, hr⟩ := hp
    obtain ⟨hscan, hloops⟩ := ofStanding_congr hwf hwf' hr.standing fun m hm _ => h m (hup m q hm hr.standing.inner)
    have hofrun : ofRun t' k r = ofRun t k r := by
      unfold ofRun
      cases hn : r.next with
      | none => rfl
      | some n => exact (h q hr.standing.inner).ahead hwf hwf' (hr.next n hn).1
    rw [Option.map_some, Option.map_some, hofrun, hscan, hloops]
  | none =>
    simp only [hrun] at hp
    generalize f.loops = loops at hp
    generalize f.scan = scan at hp
    cases hp with
    | ended => rfl
    | @«at» q loops pos scan hs hpos =>
      obtain ⟨hscan, hloops⟩ := ofStanding_congr hwf hwf' hs fun m hm _ => h m (hup m q hm hs.inner)
      rw [ofScan_cons, ofScan_cons, hscan, hloops, (h q hs.inner).ahead hwf hwf' hpos]
      rfl

end

/-- A change of which the walk of another document notices nothing. -/
theorem level_of_around (hwf : t.WellFormed) (ha : Around rs t t') (hr : root ∈ rs) (hroot : IsRoot t root)
    (hq : Inner t root q) : Level t t' q where
  children := (ha.trunk root hr hroot).children hq
  name := ha.names root hr hroot q hq
  attrs := ha.attrs root hr hroot q hq
  repeatId := ha.ids root hr hroot q hq
  depth := congrArg List.length
    (ancestors_of_keepsShape hwf ha.wellFormed hroot.parent? (ha.trunk root hr hroot) hq)

theorem inner_of_around (hwf : t.WellFormed) (ha : Around rs t t') (hr : root ∈ rs) (hroot : IsRoot t root)
    (hq : Inner t' root q) : Inner t root q := by
  have hk := ha.trunk root hr hroot
  induction hq with
  | root => exact .root
  | @step p n _ hp hn ih =>
    have hc : n ∈ t.children p := by
      rw [← hk.children ih]
      exact ha.wellFormed.mem_children.mpr hp
    rw [ha.names root hr hroot p ih n hc] at hn
    exact .step ih (hwf.mem_children.mp hc) hn

theorem ofFrame_of_around (hwf : t.WellFormed) (ha : Around rs t t') (hr : root ∈ rs) (hroot : IsRoot t root)
    (hp : Placed t root f) : ofFrame t' s k f = ofFrame t s k f :=
  ofFrame_congr hwf ha.wellFormed hp (fun _ hq => level_of_around hwf ha hr hroot hq) fun _ _ hm hq =>
    (Tree.trunk_inner hwf hroot.live hroot.parent?).of_under hm hq

end Work

theorem Bounded.of_around (hwf : t.WellFormed) (ha : Around rs t t') (hr : root ∈ rs) (hroot : IsRoot t root)
    (hb : Bounded t root k) : Bounded t' root k := by
  intro q hq
  have hi := Work.inner_of_around hwf ha hr hroot hq
  rw [(Work.level_of_around hwf ha hr hroot hi).depth]
  exact hb q hi

end Walk

end Stencil
