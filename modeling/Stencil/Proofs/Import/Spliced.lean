/-
  What putting a document into the place of an import does, node by node.

  `Spliced t node root t'` gives the views of every node that lives afterwards: the import is a group
  with the children of the document's root, these have the import for their parent, and no other node
  has changed.
-/
import Stencil.Proofs.Import.Released

set_option autoImplicit false

namespace Stencil.Import

open Stencil.Tree (Under Holds HoldsAll)

variable {t t' : Tree} {node root n m : NodeId} {cs : List NodeId}

/-! ## Moving children -/

theorem content_move : (cs.foldl (fun t c => t.appendChild node c) t).content m = t.content m := by
  induction cs generalizing t with
  | nil => rfl
  | cons c cs ih =>
    rw [List.foldl_cons, ih, Tree.appendChild_eq_attach, Tree.content_attach, Tree.content_detach]

theorem children_appendChild (h : t.WellFormed) (hn : t.Live node) {c : NodeId} :
    (t.appendChild node c).children m
      = if m = node then (t.children m).erase c ++ [c] else (t.children m).erase c := by
  rw [Tree.appendChild_eq_attach, Tree.children_attach (Tree.live_detach.mpr hn), h.children_detach]

/-- Children of a root that are moved below another node, one after another, are its last children
    then. -/
theorem children_move (h : t.WellFormed) (hn : t.Live node) (hout : ¬ Under t root node)
    (hcs : ∀ c ∈ cs, t.parent? c = some root) (hnd : cs.Nodup) (hm : m ≠ root) :
    (cs.foldl (fun t c => t.appendChild node c) t).children m
      = if m = node then t.children m ++ cs else t.children m := by
  induction cs generalizing t with
  | nil =>
    rw [List.foldl_nil, List.append_nil]
    split <;> rfl
  | cons c cs ih =>
    have hpc := hcs c List.mem_cons_self
    obtain ⟨hnot, hout'⟩ := not_under_move h hn hout hpc
    obtain ⟨hnc, hnd'⟩ := List.nodup_cons.mp hnd
    have hlc := (h.live_of_parent hpc).1
    have herase : (t.children m).erase c = t.children m := by
      refine List.erase_of_not_mem fun hc => hm ?_
      exact Option.some.inj ((h.mem_children.mp hc).symm.trans hpc)
    rw [List.foldl_cons, ih (h.appendChild hlc hn hnot) (Tree.live_appendChild.mpr hn) hout' ?_ hnd',
      children_appendChild h hn, herase]
    · by_cases hm : m = node
      · rw [if_pos hm, if_pos hm, if_pos hm, List.append_assoc]
        rfl
      · rw [if_neg hm, if_neg hm, if_neg hm]
    · intro c' hc'
      rw [h.parent?_appendChild hlc, if_neg fun he : c' = c => hnc (he ▸ hc')]
      exact hcs c' (List.mem_cons_of_mem _ hc')

/-- `t'` is the tree `t` in which the children of a root have been moved below another node. -/
structure Moved (t : Tree) (node root : NodeId) (t' : Tree) : Prop where
  wellFormed : t'.WellFormed
  live : ∀ n, t'.Live n ↔ t.Live n
  content : ∀ n, t'.content n = t.content n
  children : ∀ n, n ≠ root → t'.children n = if n = node then t.children n ++ t.children root else t.children n
  parent? : ∀ n, t'.parent? n = if t.parent? n = some root then some node else t.parent? n

theorem moved (h : t.WellFormed) (hn : t.Live node) (hout : ¬ Under t root node) :
    Moved t node root ((t.children root).foldl (fun t c => t.appendChild node c) t) := by
  have hcs : ∀ c ∈ t.children root, t.parent? c = some root := fun c hc => h.mem_children.mp hc
  have hnd := h.children_nodup root
  refine ⟨?_, fun n => live_move, fun n => content_move, fun n hm => children_move h hn hout hcs hnd hm, ?_⟩
  · exact (spared_move h hn hout hcs hnd Tree.closed_none.toUpward (fun _ _ => id) Tree.closed_none id id).wellFormed
  · intro n
    rw [parent?_move h hn hout hcs hnd]
    by_cases hm : n ∈ t.children root
    · rw [if_pos hm, if_pos (hcs n hm)]
    · rw [if_neg hm, if_neg fun hp => hm (h.mem_children.mpr hp)]

/-- `t'` is the tree `t` in which a group holds the children of a root that is gone. -/
structure Filled (t : Tree) (node root : NodeId) (t' : Tree) : Prop where
  wellFormed : t'.WellFormed
  live : ∀ n, t'.Live n ↔ t.Live n ∧ n ≠ root
  content : ∀ n, t'.Live n →
    t'.content n = if n = node then { t.content n with name := "items" } else t.content n
  children : ∀ n, t'.Live n → t'.children n = if n = node then t.children n ++ t.children root else t.children n
  parent? : ∀ n, t'.Live n → t'.parent? n = if t.parent? n = some root then some node else t.parent? n

theorem Moved.filled (hm : Moved t node root t') (hl : t.Live root) (hr : t.parent? root = none)
    (hout : ¬ Under t root node) : Filled t node root ((t'.release root).rename node "items") := by
  have hrel := hm.wellFormed.released ((hm.live root).mpr hl)
  have hroot : t'.parent? root = none := by
    rw [hm.parent?, hr, if_neg]
    exact fun he => (nomatch he)
  -- nothing is left below the root
  have hunder : ∀ n, Under t' root n ↔ n = root := by
    intro n
    refine ⟨fun hu => ?_, fun he => he ▸ .self⟩
    induction hu with
    | self => rfl
    | @child p c hp _ ih =>
      rw [ih, hm.parent?] at hp
      split at hp
      · exact absurd (Option.some.inj hp ▸ .self) hout
      · contradiction
  have hlive : ∀ n, ((t'.release root).rename node "items").Live n ↔ t.Live n ∧ n ≠ root := by
    intro n
    rw [Tree.rename, Tree.live_modify, hrel.live, hm.live, hunder]
  have hback : ∀ n, ((t'.release root).rename node "items").Live n → (t'.release root).Live n ∧ ¬ Under t' root n :=
    fun n hn => ⟨(Tree.live_modify _ node n _).mp hn, fun hu => ((hlive n).mp hn).2 ((hunder n).mp hu)⟩
  refine ⟨hrel.wellFormed.rename node "items", hlive, fun n hn => ?_, fun n hn => ?_, fun n hn => ?_⟩
  · obtain ⟨hlr, hu⟩ := hback n hn
    rw [← hm.content n, ← hrel.content n hu]
    unfold Tree.rename Tree.content
    by_cases he : n = node
    · rw [if_pos he, Tree.node_modify, if_pos ⟨he.symm, hlr.1⟩]
    · rw [if_neg he, Tree.node_modify_of_ne fun h => he h.symm]
  · have hnot : root ∉ t'.children n := by
      rw [hm.wellFormed.mem_children, hroot]
      exact fun he => (nomatch he)
    unfold Tree.rename
    rw [Tree.children_modify (f := fun x => { x with name := "items" }) (fun _ => rfl) node n,
      hrel.children n (hback n hn).2, List.erase_of_not_mem hnot,
      hm.children n ((hlive n).mp hn).2]
  · unfold Tree.rename
    rw [Tree.parent?_modify (f := fun x => { x with name := "items" }) (fun _ => rfl) node n,
      hrel.parent? n (hback n hn).2, hm.parent?]

/-! ## Clearing an import -/

/-- What an import is when it has lost all but its name. -/
def bare (t : Tree) (node : NodeId) : Node :=
  { t.content node with attrs := (t.node node).attrs.filter fun a => a.1 == "name", text := "" }

/-- `t'` is the tree `t` in which a node has lost its children, its text and all attributes but the
    name. -/
structure Cleared (t : Tree) (node : NodeId) (t' : Tree) : Prop where
  wellFormed : t'.WellFormed
  live : ∀ n, t'.Live n ↔ t.Live n ∧ ∀ c ∈ t.children node, ¬ Under t c n
  content : ∀ n, t'.Live n → t'.content n = if n = node then bare t node else t.content n
  children : ∀ n, t'.Live n → t'.children n = if n = node then [] else t.children n
  parent? : ∀ n, t'.Live n → t'.parent? n = t.parent? n

theorem cleared (h : t.WellFormed) (hn : t.Live node) :
    Cleared t node ((((t.children node).foldl Tree.release t).setText node "").retainAttrs node ["name"]) := by
  have hd := h.dropped (h.children_nodup node) fun c hc => h.mem_children.mp hc
  have habove : ∀ c ∈ t.children node, ¬ Under t c node := fun c hc =>
    h.not_under_parent (h.mem_children.mp hc)
  have hkept : ∀ n, n ≠ node → (t.children n).filter (fun c => !(t.children node).contains c) = t.children n := by
    intro n hne
    refine List.filter_eq_self.mpr fun c hc => ?_
    rw [Bool.not_eq_true', List.contains_eq_mem, decide_eq_false_iff_not]
    exact fun hc' => hne (Option.some.inj ((h.mem_children.mp hc).symm.trans (h.mem_children.mp hc')))
  have hnone : (t.children node).filter (fun c => !(t.children node).contains c) = [] := by
    refine List.filter_eq_nil_iff.mpr fun c hc => ?_
    rw [List.contains_iff_mem.mpr hc]
    exact Bool.false_ne_true
  obtain ⟨hwf, hlive, hparent⟩ := links_of_bare hd.wellFormed node
  have hl := fun n => (hlive n).trans (hd.live n)
  have hnd := (hd.live node).mpr ⟨hn, habove⟩
  refine ⟨hwf, hl, fun n hn' => ?_, fun n hn' => ?_, fun n hn' => ?_⟩
  · have hcontent := hd.content n ((hl n).mp hn').2
    have hsize := ((hd.live n).mpr ((hl n).mp hn')).1
    by_cases he : n = node
    · subst he
      rw [if_pos rfl, bare, ← hcontent, ← Tree.attrs_eq_of_content hcontent]
      unfold Tree.retainAttrs Tree.setText Tree.content
      rw [Tree.node_modify, if_pos ⟨rfl, by rwa [Tree.size_nodes_modify]⟩, Tree.node_modify,
        if_pos ⟨rfl, hsize⟩]
      simp only [List.contains_cons, List.contains_nil, Bool.or_false]
    · rw [if_neg he, ← hcontent]
      unfold Tree.retainAttrs Tree.setText Tree.content
      rw [Tree.node_modify_of_ne fun h => he h.symm, Tree.node_modify_of_ne fun h => he h.symm]
  · have hch : ∀ t' : Tree, ((t'.setText node "").retainAttrs node ["name"]).children n = t'.children n := by
      intro t'
      unfold Tree.retainAttrs Tree.setText
      rw [Tree.children_modify, Tree.children_modify] <;> exact fun _ => rfl
    rw [hch, hd.children n ((hl n).mp hn').2]
    by_cases he : n = node
    · rw [if_pos he, he, hnone]
    · rw [if_neg he, hkept n he]
  · rw [hparent, hd.parent? n ((hl n).mp hn').2]

/-! ## Putting a document in -/

/-- `t'` is the tree `t` in which the document with a root has taken the place of an import. -/
structure Spliced (t : Tree) (node root : NodeId) (t' : Tree) : Prop where
  wellFormed : t'.WellFormed
  live : ∀ n, t'.Live n ↔ t.Live n ∧ (∀ c ∈ t.children node, ¬ Under t c n) ∧ n ≠ root
  content : ∀ n, t'.Live n →
    t'.content n = if n = node then { bare t node with name := "items" } else t.content n
  children : ∀ n, t'.Live n → t'.children n = if n = node then t.children root else t.children n
  parent? : ∀ n, t'.Live n → t'.parent? n = if t.parent? n = some root then some node else t.parent? n

theorem spliced_spliceInto (h : t.WellFormed) (hn : t.Live node) (hl : t.Live root)
    (hr : t.parent? root = none) (hout : ¬ Under t root node) :
    Spliced t node root (spliceInto t node root) := by
  have hc := cleared h hn
  unfold spliceInto
  dsimp only
  generalize (((t.children node).foldl Tree.release t).setText node "").retainAttrs node ["name"] = t₁ at hc
  have hne : node ≠ root := fun he => hout (he ▸ .self)
  have habove : ∀ c ∈ t.children node, ¬ Under t c node := fun c hc =>
    h.not_under_parent (h.mem_children.mp hc)
  have hroot : ∀ c ∈ t.children node, ¬ Under t c root := fun c hc hu => by
    rw [hu.eq_of_root hr, h.mem_children.mp hc] at hr
    cases hr
  have hl₁ := (hc.live root).mpr ⟨hl, hroot⟩
  have hout₁ : ¬ Under t₁ root node := by
    rw [Tree.under_congr (t := t) fun m hm => hc.parent? m ((hc.live m).mpr
      ⟨h.live_of_under' hn hm, fun c hc hu => habove c hc (hu.trans hm)⟩)]
    exact hout
  have hf := (moved hc.wellFormed ((hc.live node).mpr ⟨hn, habove⟩) hout₁).filled hl₁
    ((hc.parent? root hl₁).trans hr) hout₁
  have hback : ∀ n, _ → t₁.Live n := fun n hn => ((hf.live n).mp hn).1
  refine ⟨hf.wellFormed, fun n => ?_, fun n hn => ?_, fun n hn => ?_, fun n hn => ?_⟩
  · rw [hf.live, hc.live, and_assoc]
  · rw [hf.content n hn, hc.content n (hback n hn)]
    split <;> rfl
  · rw [hf.children n hn, hc.children n (hback n hn), hc.children root hl₁, if_neg hne.symm]
    split <;> rfl
  · rw [hf.parent? n hn, hc.parent? n (hback n hn)]

end Stencil.Import
