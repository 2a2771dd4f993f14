/-
  What the rules of an import change.

  Rules are applied to one document.  A query selects nodes of that document only, so whatever the rules
  say, each other document keeps every node; no node is given up, and no root gets a parent
  (`Edited`, `edited_edit`).
-/
import Stencil.Import
import Stencil.Proofs.Action
import Stencil.Proofs.Query.Inside
import Stencil.Proofs.Tree.Frame

set_option autoImplicit false

namespace Stencil.Import

open Stencil.Tree (Under Closed Keeps Grafted)

variable {t t' t₁ t₂ : Tree} {P : NodeId → Prop} {id root : NodeId} {d d' : Desk} {o : Options}
  {load : Loader} {text : String} {rule : NodeId} {transform origin : Option String}

/-! ## Edits -/

/-- `t'` is `t` after changes to what nodes outside `P` hold. -/
structure Edited (P : NodeId → Prop) (t t' : Tree) : Prop where
  wellFormed : t'.WellFormed
  live : ∀ n, t.Live n → t'.Live n
  root : ∀ n, t.parent? n = none → t'.parent? n = none
  keeps : Keeps P t t'

namespace Edited

theorem refl (h : t.WellFormed) (hc : Closed t P) : Edited P t t :=
  ⟨h, fun _ hn => hn, fun _ hn => hn, .refl hc⟩

theorem trans (h : Edited P t t₁) (h' : Edited P t₁ t₂) : Edited P t t₂ where
  wellFormed := h'.wellFormed
  live := fun n hn => h'.live n (h.live n hn)
  root := fun n hn => h'.root n (h.root n hn)
  keeps := h.keeps.trans h'.keeps

theorem modify (hwf : t.WellFormed) (hc : Closed t P) (hid : ¬ P id) {f : Node → Node}
    (hch : ∀ x, (f x).children = x.children) (hp : ∀ x, (f x).parent = x.parent) :
    Edited P t (t.modify id f) where
  wellFormed := hwf.modify hch hp id
  live := fun n hn => (Tree.live_modify t id n f).mpr hn
  root := fun n hn => (Tree.parent?_modify hp id n).trans hn
  keeps := hc.keeps_modify hid f

theorem setValue (hwf : t.WellFormed) (hc : Closed t P) (hid : ¬ P id) (text : String) :
    Edited P t (t.setValue id text) where
  wellFormed := hwf.setValue id text
  live := fun _ hn => (Tree.live_setValue text).mpr hn
  root := by
    intro n hn
    rw [hwf.parent?_setValue, hn]
    split <;> rfl
  keeps := hc.keeps_setValue hwf hid text

end Edited

/-! ## Rules -/

theorem fetch_ok {path : String} {e : Element} (h : fetch load path d = .ok e d') :
    d'.tree = d.tree := by
  obtain ⟨l, -, rfl⟩ := Action.within_eq_ok.mp h
  rfl

theorem replacement_ok (h : replacement o load rule transform origin d = .ok text d') :
    d'.tree = d.tree := by
  unfold replacement at h
  rw [Action.get_bind_eq_ok] at h
  generalize d.tree.attr? rule "type" = kind at h
  split at h
  · obtain ⟨-, rfl⟩ := Action.pure_eq_ok.mp h
    rfl
  · obtain ⟨-, rfl⟩ := Action.pure_eq_ok.mp h
    rfl
  · split at h
    · exact (Action.failAt_eq_ok.mp h).elim
    · obtain ⟨e, d₁, hf, h⟩ := Action.bind_eq_ok.mp h
      obtain ⟨-, rfl⟩ := Action.ofExcept_eq_ok.mp h
      exact fetch_ok hf

theorem edited_replace {source : String} {n : Query.NodeRef} (hwf : d.tree.WellFormed)
    (hc : Closed d.tree P) (hn : ¬ P n.anchor) (h : replace source text rule n d = .ok () d') :
    Edited P d.tree d'.tree := by
  cases n with
  | element id =>
    rw [Action.modify_eq_ok.mp h]
    exact .setValue hwf hc hn text
  | attr id name =>
    rw [Action.modify_eq_ok.mp h]
    exact .modify hwf hc hn (fun _ => rfl) (fun _ => rfl)
  | text id =>
    rw [Action.modify_eq_ok.mp h]
    exact .modify hwf hc hn (fun _ => rfl) (fun _ => rfl)
  | document id =>
    obtain ⟨_, _, -, h⟩ := Action.bind_eq_ok.mp h
    exact (Action.failAt_eq_ok.mp h).elim

theorem edited_replaceAll {source : String} {ns : List Query.NodeRef} (hwf : d.tree.WellFormed)
    (hc : Closed d.tree P) (hns : ∀ n ∈ ns, ¬ P n.anchor)
    (h : replaceAll source text rule ns d = .ok () d') : Edited P d.tree d'.tree := by
  induction ns generalizing d with
  | nil =>
    obtain ⟨-, rfl⟩ := Action.pure_eq_ok.mp h
    exact .refl hwf hc
  | cons n ns ih =>
    obtain ⟨_, d₁, h₁, h₂⟩ := Action.bind_eq_ok.mp h
    have he := edited_replace hwf hc (hns n List.mem_cons_self) h₁
    exact he.trans (ih he.wellFormed (he.keeps.closed hc hwf he.wellFormed)
      (fun m hm => hns m (List.mem_cons_of_mem _ hm)) h₂)

theorem edited_applyRule (hwf : d.tree.WellFormed) (hc : Closed d.tree P)
    (hr : d.tree.parent? root = none) (hroot : ¬ P root)
    (h : applyRule o load root transform origin rule d = .ok () d') :
    Edited P d.tree d'.tree := by
  unfold applyRule at h
  rw [Action.get_bind_eq_ok] at h
  generalize d.tree.attr? rule "from" = selection at h
  split at h
  · exact (Action.failAt_eq_ok.mp h).elim
  · obtain ⟨text, d₁, h₁, h⟩ := Action.bind_eq_ok.mp h
    rw [Action.get_bind_eq_ok] at h
    obtain ⟨selected, hs, h⟩ := Action.ofExcept_bind_eq_ok.mp h
    have htree := replacement_ok h₁
    rw [← htree] at hwf hc hr ⊢
    refine edited_replaceAll hwf hc (fun n hn hP => ?_) h
    -- the selected nodes stand below the root, which is no part of `P`
    exact hroot (hc.of_under (Query.select_inside hwf hr hs n hn) hP)

theorem edited_applyRules {rules : List NodeId} (hwf : d.tree.WellFormed) (hc : Closed d.tree P)
    (hr : d.tree.parent? root = none) (hroot : ¬ P root)
    (h : applyRules o load root transform origin rules d = .ok () d') :
    Edited P d.tree d'.tree := by
  induction rules generalizing d with
  | nil =>
    obtain ⟨-, rfl⟩ := Action.pure_eq_ok.mp h
    exact .refl hwf hc
  | cons rule rules ih =>
    unfold applyRules at h
    rw [Action.get_bind_eq_ok] at h
    split at h
    · obtain ⟨_, d₁, h₁, h₂⟩ := Action.bind_eq_ok.mp h
      have he := edited_applyRule hwf hc hr hroot h₁
      exact he.trans (ih he.wellFormed (he.keeps.closed hc hwf he.wellFormed) (he.root _ hr) h₂)
    · exact ih hwf hc hr h

/-- The rules of an import change nothing in a closed set that the edited document is no part of. -/
theorem edited_edit {node : NodeId} (hwf : d.tree.WellFormed) (hc : Closed d.tree P)
    (hr : d.tree.parent? root = none) (hroot : ¬ P root)
    (h : edit o load node root origin d = .ok () d') : Edited P d.tree d'.tree := by
  unfold edit at h
  rw [Action.get_bind_eq_ok] at h
  exact edited_applyRules hwf hc hr hroot h

/-- The rules of an import give no node up. -/
theorem live_edit {node n : NodeId} (hwf : d.tree.WellFormed) (hr : d.tree.parent? root = none)
    (h : edit o load node root origin d = .ok () d') (hn : d.tree.Live n) : d'.tree.Live n :=
  (edited_edit hwf Tree.closed_none hr id h).live n hn

/-! ## Targets -/

/-- The target of an import becomes a document of its own. -/
theorem grafted_place {node : NodeId} {p : Placed} (hwf : d.tree.WellFormed)
    (h : place o load node origin d = .ok p d') : ∃ e, Grafted d.tree e p.root d'.tree := by
  unfold place at h
  rw [Action.get_bind_eq_ok] at h
  obtain ⟨name, -, h⟩ := Action.ofExcept_bind_eq_ok.mp h
  obtain ⟨e, d₁, hf, h⟩ := Action.bind_eq_ok.mp h
  rw [Action.get_bind_eq_ok] at h
  dsimp only at h
  rw [Action.set_bind_eq_ok] at h
  obtain ⟨rfl, rfl⟩ := Action.pure_eq_ok.mp h
  rw [← fetch_ok hf] at hwf ⊢
  exact ⟨e, hwf.grafted e⟩

end Stencil.Import
