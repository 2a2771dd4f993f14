/-
  What imports give up.

  When an import is replaced, what stood below it is given up, and so is the root of the document that takes its
  place, as soon as its content has been moved (`GivesUp`).  Nothing else is (`live_of_spliceAll`).  None of these
  nodes is needed any more: not for the imports that are still to be replaced, nor for any document but the one
  that is worked on (`GivesUp.unneeded`).
-/
import Stencil.Proofs.Import.Splices

set_option autoImplicit false

namespace Stencil.Import

open Stencil.Tree (Under Closed Keeps)

variable {t : Tree} {P : NodeId → Prop} {node root n m : NodeId} {s : Splice} {ss : List Splice} {d d' : Desk}
  {o : Options} {load : Loader} {cs aside : List NodeId}

/-- The imports that are still to be replaced, and the roots of the documents that they name. -/
def awaited (ss : List Splice) : List NodeId := ss.flatMap fun s => [s.node, s.root]

/-- While the imports `ss` are replaced, a node is given up; the nodes `aside` are needed behind that. -/
inductive GivesUp (o : Options) (load : Loader) : List Splice → Desk → List NodeId → NodeId → Prop
  /-- An import is cleared. -/
  | cleared {s : Splice} {ss : List Splice} {d d₁ : Desk} {c n : NodeId}
      (rules : edit o load s.node s.root s.origin d = .ok () d₁) (child : c ∈ d₁.tree.children s.node)
      (below : Under d₁.tree c n) : GivesUp o load (s :: ss) d (awaited (s :: ss)) n
  /-- The content of a document has been moved. -/
  | emptied {s : Splice} {ss : List Splice} {d d₁ : Desk}
      (rules : edit o load s.node s.root s.origin d = .ok () d₁) :
      GivesUp o load (s :: ss) d (s.node :: awaited ss) s.root
  | later {s : Splice} {ss : List Splice} {d d₁ : Desk} {aside : List NodeId} {n : NodeId}
      (rules : edit o load s.node s.root s.origin d = .ok () d₁)
      (further : GivesUp o load ss { d₁ with tree := spliceInto d₁.tree s.node s.root } aside n) :
      GivesUp o load (s :: ss) d aside n

/-! ## What is given up is not needed -/

theorem mem_awaited : n ∈ awaited ss ↔ ∃ s ∈ ss, n = s.node ∨ n = s.root := by
  simp [awaited]

/-- What is given up belongs to the document that is worked on, and it is needed no more. -/
theorem GivesUp.unneeded (h : GivesUp o load ss d aside n) (hwf : d.tree.WellFormed) (hp : Pending d.tree ss)
    (hl : d.tree.Live root) (hr : d.tree.parent? root = none) (hne : ∀ s ∈ ss, s.root ≠ root)
    (hc : Closed d.tree P) (hP : ∀ s ∈ ss, ¬ P s.node ∧ ¬ P s.root) : ¬ P n ∧ n ≠ root ∧ n ∉ aside := by
  -- the rules change neither what is pending nor what the document is no part of
  have hrules : ∀ {s : Splice} {ss : List Splice} {d d₁ : Desk}, edit o load s.node s.root s.origin d = .ok () d₁ →
      d.tree.WellFormed → Pending d.tree (s :: ss) → Closed d.tree P → ¬ P s.root →
      Edited P d.tree d₁.tree ∧ Pending d₁.tree (s :: ss) := fun h hwf hp hc hP => by
    have hrs := hp.parent?_root _ List.mem_cons_self
    exact ⟨edited_edit hwf hc hrs hP h,
      hp.edited hwf (edited_edit hwf (closed_beyond hwf hrs) hrs (fun hb => hb.2 .self) h)⟩
  induction h with
  | @cleared s ss d d₁ c n rules child below =>
    obtain ⟨he, hp₁⟩ := hrules rules hwf hp hc (hP s List.mem_cons_self).2
    have hc₁ := he.keeps.closed hc hwf he.wellFormed
    have hcp := he.wellFormed.mem_children.mp child
    have hsn : Under d₁.tree s.node n := (Tree.under_of_parent hcp).trans below
    have hroot : ∀ {r}, d₁.tree.parent? r = none → n ≠ r := by
      rintro r hr rfl
      rw [below.eq_of_root hr, hcp] at hr
      cases hr
    refine ⟨fun hPn => (hP s List.mem_cons_self).1 (hc₁.up c s.node (hc₁.of_under below hPn) hcp),
      hroot (he.root root hr), fun hm => ?_⟩
    obtain ⟨s', hs', rfl | rfl⟩ := mem_awaited.mp hm
    · rcases List.mem_cons.mp hs' with rfl | hs'
      · exact he.wellFormed.not_under_parent hcp below
      · exact ((List.pairwise_cons.mp hp₁.order).1 s' hs').1 hsn
    · exact hroot (hp₁.parent?_root s' hs') rfl
  | @emptied s ss d d₁ rules =>
    obtain ⟨he, hp₁⟩ := hrules rules hwf hp hc (hP s List.mem_cons_self).2
    refine ⟨(hP s List.mem_cons_self).2, hne s List.mem_cons_self, fun hm => ?_⟩
    rcases List.mem_cons.mp hm with hm | hm
    · refine hp₁.outside s List.mem_cons_self ?_
      rw [← hm]
      exact .self
    · obtain ⟨s', hs', hm⟩ := mem_awaited.mp hm
      obtain ⟨-, hout, hroots⟩ := (List.pairwise_cons.mp hp₁.order).1 s' hs'
      rcases hm with hm | hm
      · rw [← hm] at hout
        exact hout .self
      · exact hroots hm
  | @later s ss d d₁ aside n rules further ih =>
    obtain ⟨hsn, hsr⟩ := hP s List.mem_cons_self
    obtain ⟨he, hp₁⟩ := hrules rules hwf hp hc hsr
    have hc₁ := he.keeps.closed hc hwf he.wellFormed
    have hs := spared_spliceInto he.wellFormed (hp₁.live_node s List.mem_cons_self)
      (hp₁.live_root s List.mem_cons_self) (hp₁.parent?_root s List.mem_cons_self)
      (hp₁.outside s List.mem_cons_self) hc₁ hsn hsr
    have hr₁ := he.root root hr
    have hkr := hs.parents root (aside_of_root (he.live root hl) hr₁ (hne s List.mem_cons_self))
    exact ih hs.wellFormed (hp₁.spliced he.wellFormed) hkr.1 (hkr.2.trans hr₁)
      (fun s' hm => hne s' (List.mem_cons_of_mem _ hm)) (hs.keeps.closed hc₁ he.wellFormed hs.wellFormed)
      (fun s' hm => hP s' (List.mem_cons_of_mem _ hm))

/-! ## Nothing else is given up -/

theorem live_move : (cs.foldl (fun t c => t.appendChild node c) t).Live m ↔ t.Live m := by
  induction cs generalizing t with
  | nil => rfl
  | cons c cs ih => rw [List.foldl_cons, ih, Tree.live_appendChild]

/-- Children of a root that are moved below another node, one after another, are below that node. -/
theorem parent?_move (h : t.WellFormed) (hn : t.Live node) (hout : ¬ Under t root node)
    (hcs : ∀ c ∈ cs, t.parent? c = some root) (hnd : cs.Nodup) :
    (cs.foldl (fun t c => t.appendChild node c) t).parent? m = if m ∈ cs then some node else t.parent? m := by
  induction cs generalizing t with
  | nil => rfl
  | cons c cs ih =>
    have hpc := hcs c List.mem_cons_self
    have hlc := (h.live_of_parent hpc).1
    obtain ⟨hnc, hnd⟩ := List.nodup_cons.mp hnd
    obtain ⟨hcn, hout'⟩ := not_under_move h hn hout hpc
    rw [List.foldl_cons, ih (h.appendChild hlc hn hcn) (Tree.live_appendChild.mpr hn) hout' ?_ hnd,
      h.parent?_appendChild hlc]
    · by_cases hmc : m = c
      · subst hmc
        simp
      · simp [hmc]
    · intro c' hc'
      rw [h.parent?_appendChild hlc, if_neg fun he : c' = c => hnc (he ▸ hc')]
      exact hcs c' (List.mem_cons_of_mem _ hc')

/-- Text and attributes have nothing to do with links. -/
theorem links_of_bare (h : t.WellFormed) (node : NodeId) :
    ((t.setText node "").retainAttrs node ["name"]).WellFormed
      ∧ (∀ m, ((t.setText node "").retainAttrs node ["name"]).Live m ↔ t.Live m)
      ∧ ∀ m, ((t.setText node "").retainAttrs node ["name"]).parent? m = t.parent? m := by
  unfold Tree.retainAttrs Tree.setText
  refine ⟨(h.modify ?_ ?_ node).modify ?_ ?_ node, fun m => ?_, fun m => ?_⟩
  iterate 4 exact fun _ => rfl
  · rw [Tree.live_modify, Tree.live_modify]
  · rw [Tree.parent?_modify, Tree.parent?_modify] <;> exact fun _ => rfl

/-- When a document takes the place of an import, what stood below the import is given up, and the root of the
    document. -/
theorem live_spliceInto (h : t.WellFormed) (hn : t.Live node) (hl : t.Live root) (hr : t.parent? root = none)
    (hout : ¬ Under t root node) : (spliceInto t node root).Live m
      ↔ t.Live m ∧ (∀ c ∈ t.children node, ¬ Under t c m) ∧ m ≠ root := by
  have hd := h.dropped (h.children_nodup node) fun c hc => h.mem_children.mp hc
  have habove : ∀ c ∈ t.children node, ¬ Under t c node := fun c hc =>
    h.not_under_parent (h.mem_children.mp hc)
  have hroot : ∀ c ∈ t.children node, ¬ Under t c root := fun c hc hu => by
    rw [hu.eq_of_root hr, h.mem_children.mp hc] at hr
    cases hr
  unfold spliceInto
  dsimp only
  obtain ⟨hwf₁, hlive₁, hparent₁⟩ := links_of_bare hd.wellFormed node
  generalize (((t.children node).foldl Tree.release t).setText node "").retainAttrs node ["name"] = t₁
    at hwf₁ hlive₁ hparent₁
  have hn₁ : t₁.Live node := (hlive₁ node).mpr ((hd.live node).mpr ⟨hn, habove⟩)
  have hl₁ : t₁.Live root := (hlive₁ root).mpr ((hd.live root).mpr ⟨hl, hroot⟩)
  have hout₁ : ¬ Under t₁ root node := by
    rw [Tree.under_congr (t := t) fun m hm => (hparent₁ m).trans
      (hd.parent? m fun c hc hu => habove c hc (hu.trans hm))]
    exact hout
  -- the content of the document is moved, so that nothing stands below its root
  have hcs : ∀ c ∈ t₁.children root, t₁.parent? c = some root := fun c hc => hwf₁.mem_children.mp hc
  have hmove := spared_move hwf₁ hn₁ hout₁ hcs (hwf₁.children_nodup root) Tree.closed_none.toUpward
    (fun _ _ => id) Tree.closed_none id id
  have hparent₂ : ∀ m, _ := fun m => parent?_move (m := m) hwf₁ hn₁ hout₁ hcs (hwf₁.children_nodup root)
  have hlive₂ : ∀ m, ((t₁.children root).foldl (fun t c => t.appendChild node c) t₁).Live m ↔ t₁.Live m :=
    fun m => live_move
  generalize (t₁.children root).foldl (fun t c => t.appendChild node c) t₁ = t₂ at hmove hparent₂ hlive₂
  have hbelow : Under t₂ root m → m = root := by
    intro hu
    induction hu with
    | self => rfl
    | @child p c hp _ ih =>
      rw [ih, hparent₂] at hp
      split at hp
      · rw [← Option.some.inj hp] at hout
        exact absurd .self hout
      · rename_i hc
        exact absurd (hwf₁.mem_children.mpr hp) hc
  have hrel := hmove.wellFormed.released ((hlive₂ root).mpr hl₁)
  rw [Tree.rename, Tree.live_modify, hrel.live, hlive₂, hlive₁, hd.live, and_assoc]
  refine and_congr_right fun _ => and_congr_right fun _ => not_congr ⟨hbelow, ?_⟩
  rintro rfl
  exact .self

/-- Replacing imports gives nothing else up. -/
theorem live_of_spliceAll (hwf : d.tree.WellFormed) (hp : Pending d.tree ss)
    (h : spliceAll o load ss d = .ok () d') (hn : d.tree.Live n) :
    d'.tree.Live n ∨ ∃ aside, GivesUp o load ss d aside n := by
  induction ss generalizing d with
  | nil =>
    obtain ⟨-, rfl⟩ := Action.pure_eq_ok.mp h
    exact .inl hn
  | cons s ss ih =>
    obtain ⟨_, d₁, h₁, h⟩ := Action.bind_eq_ok.mp h
    have hrs := hp.parent?_root s List.mem_cons_self
    have he := edited_edit hwf (closed_beyond hwf hrs) hrs (fun hb => hb.2 .self) h₁
    have hp₁ := hp.edited hwf he
    rw [modifyTree, Action.modify_bind_eq_ok] at h
    have hlive := live_spliceInto (m := n) he.wellFormed (hp₁.live_node s List.mem_cons_self)
      (hp₁.live_root s List.mem_cons_self) (hp₁.parent?_root s List.mem_cons_self)
      (hp₁.outside s List.mem_cons_self)
    have hs := spared_spliceInto he.wellFormed (hp₁.live_node s List.mem_cons_self)
      (hp₁.live_root s List.mem_cons_self) (hp₁.parent?_root s List.mem_cons_self)
      (hp₁.outside s List.mem_cons_self) Tree.closed_none id id
    by_cases hc : ∃ c ∈ d₁.tree.children s.node, Under d₁.tree c n
    · obtain ⟨c, hc, hu⟩ := hc
      exact .inr ⟨_, .cleared h₁ hc hu⟩
    by_cases hroot : n = s.root
    · subst hroot
      exact .inr ⟨_, .emptied h₁⟩
    · have hn' := hlive.mpr ⟨he.live n hn, fun c hcm hu => hc ⟨c, hcm, hu⟩, hroot⟩
      rcases ih (d := { d₁ with tree := spliceInto d₁.tree s.node s.root }) hs.wellFormed
        (hp₁.spliced he.wellFormed) h hn' with hl | ⟨aside, hg⟩
      · exact .inl hl
      · exact .inr ⟨aside, .later h₁ hg⟩

/-! ## Whole documents -/

/-- While the static imports of a document are replaced, a node is given up. -/
def GivesUpIn (o : Options) (load : Loader) (document : Placed) (d : Desk) (aside : List NodeId) (n : NodeId) :
    Prop :=
  ∃ ss d₁, readAll o load rounds [⟨document, []⟩] [] d = .ok ss d₁ ∧ GivesUp o load ss d₁ aside n

section

variable {document : Placed} (hwf : d.tree.WellFormed) (hl : d.tree.Live document.root)
  (hr : d.tree.parent? document.root = none)

include hwf hl hr

theorem GivesUpIn.unneeded (hc : Closed d.tree P) (hP : ¬ P document.root)
    (h : GivesUpIn o load document d aside n) : ¬ P n ∧ n ≠ document.root ∧ n ∉ aside := by
  obtain ⟨ss, d₁, h₁, h⟩ := h
  obtain ⟨hwf₁, hk, hp, hPs, hne⟩ := pending_read hwf hl hr hc hP h₁
  have hkP : Keeps P d.tree d₁.tree := fun n hn => hk n (hc.live n hn)
  exact h.unneeded hwf₁ hp (hk _ hl).1 ((hk.parent? hl).trans hr) hne (hkP.closed hc hwf hwf₁) hPs

theorem live_of_resolve (h : resolve o load document d = .ok () d') (hn : d.tree.Live n) :
    d'.tree.Live n ∨ ∃ aside, GivesUpIn o load document d aside n := by
  obtain ⟨ss, d₁, h₁, h⟩ := Action.bind_eq_ok.mp h
  obtain ⟨hwf₁, hk, hp, -⟩ := pending_read hwf hl hr Tree.closed_none id h₁
  exact (live_of_spliceAll hwf₁ hp h (hk n hn).1).imp_right fun ⟨aside, hg⟩ => ⟨aside, ss, d₁, h₁, hg⟩

end

end Stencil.Import
