/-
  What stands in the body of a loop.

  The body of a loop are the groups and loops that the walk comes to below its node: the trunk from there on.
  While the loop runs, nodes are put into it that stand for nothing, values are written below its fields, and
  the loops in it are copied.  The groups and loops there remain what they were, as far as names and attributes
  go, and so do they in a copy of the loop (`BodyFrom`).
-/
import Stencil.Proofs.Walk.Progress

set_option autoImplicit false

namespace Stencil.Walk

open Stencil.Tree (Under Inner KeepsShape)
open Loop (Entered)
open Loop.Turn (Advanced)

variable {t t₁ t' : Tree} {rs : List NodeId} {root p n m q a a' b b' : NodeId} {f : Frame} {l : Loop}
  {key : String} {inner outer loops : List Loop} {scan : List Position}

/-- Each group or loop in the body of `a'` has the name and the attributes of one in the body of `a`. -/
def BodyFrom (t : Tree) (a : NodeId) (t' : Tree) (a' : NodeId) : Prop :=
  ∀ q, Inner t' a' q → q ≠ a' →
    ∃ m, Inner t a m ∧ m ≠ a ∧ t'.name q = t.name m ∧ (t'.node q).attrs = (t.node m).attrs

/-- A body that keeps its groups and loops. -/
theorem BodyFrom.of_inner (h : ∀ q, Inner t' a q → q ≠ a → Inner t a q ∧ t'.name q = t.name q
    ∧ (t'.node q).attrs = (t.node q).attrs) : BodyFrom t a t' a := by
  intro q hq hne
  obtain ⟨hi, hname, hattrs⟩ := h q hq hne
  exact ⟨q, hi, hne, hname, hattrs⟩

theorem inner_trans (h : Inner t root a) (h' : Inner t a q) : Inner t root q := by
  induction h' with
  | root => exact h
  | step _ hp hn ih => exact .step ih hp hn

/-- A change that keeps the trunk of the document and the names beside it. -/
theorem bodyFrom_of_shape (hwf : t.WellFormed) (hwf' : t'.WellFormed) (hk : KeepsShape (Inner t root) t t')
    (hnames : ∀ p, Inner t root p → ∀ c ∈ t.children p, t'.name c = t.name c) (hi : Inner t root a) :
    BodyFrom t a t' a := by
  have hback : ∀ q, Inner t' a q → Inner t a q := by
    intro q hq
    induction hq with
    | root => exact .root
    | @step p n _ hp hn ih =>
      have hip := inner_trans hi ih
      have hc : n ∈ t.children p := by
        rw [← hk.children hip]
        exact hwf'.mem_children.mpr hp
      rw [hnames p hip n hc] at hn
      exact .step ih (hwf.mem_children.mp hc) hn
  refine .of_inner fun q hq _ => ?_
  have hiq := hback q hq
  exact ⟨hiq, hk.name (inner_trans hi hiq), hk.attrs (inner_trans hi hiq)⟩

/-- A change of which the walk of the document notices nothing. -/
theorem bodyFrom_of_around (hwf : t.WellFormed) (ha : Around rs t t') (hr : root ∈ rs) (hroot : IsRoot t root)
    (hi : Inner t root a) : BodyFrom t a t' a :=
  bodyFrom_of_shape hwf ha.wellFormed (ha.trunk root hr hroot) (ha.names root hr hroot) hi

/-- Another document is given up. -/
theorem bodyFrom_of_release (hwf : t.WellFormed) (hroot : IsRoot t root) (hm : IsRoot t m) (hne : m ≠ root)
    (hi : Inner t root a) : BodyFrom t a (t.release m) a := by
  have hk := (Tree.closed_document hwf hroot.live hroot.parent?).keeps_release hwf hm.live
    (Tree.not_under_root hm.parent? hne)
  refine bodyFrom_of_shape hwf (hwf.released hm.live).wellFormed (hk.keepsShape fun _ hn => hn.under)
    (fun p hp c hc => ?_) hi
  exact congrArg Node.name (hk c (hp.under.trans (Tree.under_of_parent (hwf.mem_children.mp hc)))).2

/-- A node is put behind the last one of a group that stands for nothing. -/
theorem bodyFrom_of_marked (hwf : t.WellFormed) (hl : t.Live a) (h : Marked t p m t') : BodyFrom t a t' a := by
  refine .of_inner fun q hq _ => ?_
  have hiq := inner_of_marked hwf hl h hq
  have hc := h.content q (hwf.live_of_under hl hiq.under)
  exact ⟨hiq, Tree.name_eq_of_content hc, Tree.attrs_eq_of_content hc⟩

/-- A loop is entered. -/
theorem bodyFrom_of_entered (he : Entered t n p t') (hl : t'.Live a) : BodyFrom t a t' a := by
  refine .of_inner fun q hq _ => ⟨inner_of_entered he hq, ?_⟩
  by_cases hqn : q = n
  · subst hqn
    exact ⟨(anchor_of_entered he).1, (anchor_of_entered he).2.1⟩
  · have hc := he.content q (he.wellFormed.live_of_under hl hq.under) hqn
    exact ⟨Tree.name_eq_of_content hc, Tree.attrs_eq_of_content hc⟩

/-- What comes from a node has a body from that of the node. -/
theorem ComesFrom.bodyFrom (ha : ComesFrom t t' a a') (hwf : t.WellFormed) (hb : t.parent? b = some p)
    (h : Advanced t p b b' t') : BodyFrom t a t' a' := by
  have hkey : ∀ q, Inner t' a' q → ∃ m, Inner t a m ∧ ComesFrom t t' m q
      ∧ (q ≠ a' → m ≠ a ∧ t'.name q = t.name m ∧ (t'.node q).attrs = (t.node m).attrs) := by
    intro q hq
    induction hq with
    | root => exact ⟨a, .root, ha, fun hne => absurd rfl hne⟩
    | @step p' n _ hp hn ih =>
      obtain ⟨m, hm, hc, -⟩ := ih
      obtain ⟨i, hpi, hci, hname, hattrs⟩ := comesFrom_child hwf hb h hc hp
      refine ⟨i, .step hm hpi (hname ▸ hn), hci, fun _ => ⟨?_, hname, hattrs⟩⟩
      rintro rfl
      exact hwf.not_under_parent hpi hm.under
  intro q hq hne
  obtain ⟨m, hm, -, h⟩ := hkey q hq
  exact ⟨m, hm, h hne⟩

/-- A loop in the body goes on. -/
theorem bodyFrom_of_advanced (hwf : t.WellFormed) (hl : t.Live a) (hb : t.parent? b = some p)
    (h : Advanced t p b b' t') : BodyFrom t a t' a :=
  ComesFrom.bodyFrom (.inl ⟨rfl, hl⟩) hwf hb h

/-- The loop itself goes on, on its node or on a copy of it. -/
theorem bodyFrom_of_advanced_self (hwf : t.WellFormed) (hb : t.parent? b = some p) (h : Advanced t p b b' t') :
    BodyFrom t b t' b' := by
  refine ComesFrom.bodyFrom ?_ hwf hb h
  rcases h.same with rfl | hnot
  · exact .inl ⟨rfl, (hwf.live_of_parent hb).1⟩
  · exact .inr (h.copy hnot)

/-- The walk stands in the bodies of the loops that run. -/
theorem Standing.inner_anchor (h : Standing t root p key (inner ++ l :: outer) scan) : Inner t l.anchor p := by
  generalize hloops : inner ++ l :: outer = loops at h
  induction h generalizing inner with
  | top => simp at hloops
  | group _ hp hname _ _ ih => exact .step (ih hloops) hp (.inl hname)
  | @loop p q key inner' l' loops scan _ hp hname _ hanchor _ _ _ _ ih =>
    cases inner with
    | nil =>
      obtain ⟨rfl, -⟩ := List.cons.inj hloops
      rw [hanchor]
      exact .root
    | cons x inner =>
      obtain ⟨-, hloops⟩ := List.cons.inj hloops
      exact .step (ih hloops) hp (.inr hname)

/-- The node of a loop that runs stands on the trunk of its document. -/
theorem Standing.inner_of_mem (h : Standing t root p key loops scan) (hl : l ∈ loops) : Inner t root l.anchor := by
  induction h with
  | top => cases hl
  | group _ _ _ _ _ ih => exact ih hl
  | loop houter hp hname _ hanchor _ _ _ _ ih =>
    rcases List.mem_cons.mp hl with rfl | hl
    · rw [hanchor]
      exact .step houter.inner hp (.inr hname)
    · exact ih hl

end Stencil.Walk
