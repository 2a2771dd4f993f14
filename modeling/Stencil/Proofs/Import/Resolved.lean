/-
  Replacing the static imports of a document inlines them.

  The tree `t` when all documents have been read is kept in mind while the imports are replaced, the last
  one found first.  A node of it *stands* (`Standing`) as long as no import above it has been replaced and
  its document has not been used up.  The invariant of the work (`Midway`): what stands has not changed,
  except that each import that has been replaced holds what inlining says.

  Imports are replaced from the inside out.  So when the turn of an import comes, nothing is left to be
  replaced in the document it names, nor below the import, where its rules are: by the invariant both hold
  what inlining says already (`Midway.exists_inlined`), and one more replacement keeps the invariant
  (`Midway.splice`).  In the end this is true of the document as a whole (`resolve_inlines`).
-/
import Stencil.Proofs.Import.Gathered
import Stencil.Proofs.Import.Spliced

set_option autoImplicit false

namespace Stencil.Tree

variable {t t' : Tree}

mutual

/-- A copy stays one as long as no node of it changes its content or its children. -/
theorem Holds.congr_views (hwf : WellFormed t) : ∀ {e : Element} {id : NodeId}, Holds t id e →
    (∀ n, Under t id n → t'.content n = t.content n ∧ t'.children n = t.children n) → Holds t' id e
  | .mk _ _ _ _ cs, id, h, heq => by
    obtain ⟨hc, hch⟩ := heq id .self
    rw [Holds] at h ⊢
    rw [hc, hch]
    refine ⟨h.1, HoldsAll.congr_views hwf h.2 fun c hm n hn => heq n ?_⟩
    exact (under_of_parent (hwf.mem_children.mp hm)).trans hn

theorem HoldsAll.congr_views (hwf : WellFormed t) : ∀ {es : List Element} {ids : List NodeId},
    HoldsAll t ids es →
    (∀ i ∈ ids, ∀ n, Under t i n → t'.content n = t.content n ∧ t'.children n = t.children n) →
    HoldsAll t' ids es
  | [], [], _, _ => by rw [HoldsAll]; trivial
  | [], _ :: _, h, _ => by rw [HoldsAll] at h; exact h.elim
  | _ :: _, [], h, _ => by rw [HoldsAll] at h; exact h.elim
  | e :: es, i :: is, h, heq => by
    rw [HoldsAll] at h ⊢
    refine ⟨Holds.congr_views hwf h.1 (heq i List.mem_cons_self), HoldsAll.congr_views hwf h.2 ?_⟩
    exact fun j hj => heq j (List.mem_cons_of_mem _ hj)

end

end Stencil.Tree

namespace Stencil.Import

open Stencil.Tree (Under Closed Keeps Upward KeepsParents Alike Holds HoldsAll)

variable {o : Options} {load : Loader} {l : Library} {t t' : Tree} {d d' : Desk} {n m : NodeId}
  {s : Splice} {ss done : List Splice} {docs : List Placed} {D document : Placed}

/-! ## What stands -/

/-- A node that has its place when the imports `done` have been replaced. -/
structure Standing (t : Tree) (done : List Splice) (n : NodeId) : Prop where
  live : t.Live n
  root : ∀ s ∈ done, ¬ Under t s.root n
  node : ∀ s ∈ done, Under t s.node n → n = s.node

theorem Standing.of_append (h : Standing t (done ++ ss) n) : Standing t done n :=
  ⟨h.live, fun s hs => h.root s (List.mem_append_left ss hs), fun s hs => h.node s (List.mem_append_left ss hs)⟩

theorem upward_standing (hwf : t.WellFormed) : Upward t (Standing t done) where
  live := fun _ hn => hn.live
  up := by
    intro n p hn hp
    refine ⟨(hwf.live_of_parent hp).2, fun s hs hu => hn.root s hs (.child hp hu), fun s hs hu => ?_⟩
    -- above what stands, no import has been replaced
    have he := hn.node s hs (.child hp hu)
    subst he
    exact absurd hu (hwf.not_under_parent hp)

/-- Below what stands and is no import that has been replaced, everything stands. -/
theorem Standing.child (h : Standing t done n) (hwf : t.WellFormed)
    (hroots : ∀ s ∈ done, t.parent? s.root = none) (hne : ∀ s ∈ done, s.node ≠ n) {c : NodeId}
    (hc : c ∈ t.children n) : Standing t done c := by
  have hp := hwf.mem_children.mp hc
  refine ⟨(hwf.live_of_parent hp).1, fun s hs hu => ?_, fun s hs hu => ?_⟩
  · refine h.root s hs (hu.of_parent hp ?_)
    rintro rfl
    rw [hroots s hs] at hp
    cases hp
  · by_cases he : c = s.node
    · exact he
    · exact absurd (h.node s hs (hu.of_parent hp he)).symm (hne s hs)

/-! ## The invariant -/

/-- `t'` is the tree `t` when the imports `done` have been replaced. -/
structure Midway (o : Options) (l : Library) (t : Tree) (done : List Splice) (t' : Tree) : Prop where
  wellFormed : t'.WellFormed
  live : ∀ n, Standing t done n → t'.Live n
  parent? : ∀ n, Standing t done n → t'.parent? n = t.parent? n
  node : ∀ n, Standing t done n → (∀ s ∈ done, s.node ≠ n) → t'.node n = t.node n
  replaced : ∀ s ∈ done, Standing t done s.node →
    ∃ e, Holds t' s.node e ∧ Inlined o l t s.origin s.node e

theorem Midway.start (hwf : t.WellFormed) : Midway o l t [] t :=
  ⟨hwf, fun _ hn => hn.live, fun _ _ => rfl, fun _ _ _ => rfl, fun _ hs => (nomatch hs)⟩

/-- The nodes above what stands are those that were above it. -/
theorem Midway.under (h : Midway o l t done t') (hwf : t.WellFormed) (hn : Standing t done n) :
    Under t' m n ↔ Under t m n :=
  (upward_standing hwf).under (fun k hk => ⟨h.live k hk, h.parent? k hk⟩) hn

/-- Where no import is left to be replaced, the tree holds what inlining says. -/
theorem Midway.exists_inlined (h : Midway o l t done t') (hwf : t.WellFormed)
    (hroots : ∀ s ∈ done, t.parent? s.root = none)
    (hg : Gathered o l t docs [] (done ++ ss)) (hD : D ∈ docs) (hu : Under t D.root n)
    (hn : Standing t done n) (hss : ∀ s ∈ ss, ¬ Under t n s.node) :
    ∃ e, Holds t' n e ∧ Inlined o l t D.path n e := by
  revert hu hn hss
  refine hwf.induction_below (motive := fun n => Under t D.root n → Standing t done n →
    (∀ s ∈ ss, ¬ Under t n s.node) → ∃ e, Holds t' n e ∧ Inlined o l t D.path n e) ?_ n
  intro n ih hu hn hss
  by_cases hdone : ∃ s ∈ done, s.node = n
  · obtain ⟨s, hs, rfl⟩ := hdone
    rw [← hg.origin D hD s (List.mem_append_left _ hs) hu]
    exact h.replaced s hs hn
  · have hne : ∀ s ∈ done, s.node ≠ n := fun s hs he => hdone ⟨s, hs, he⟩
    have hother : ¬ IsStatic t n := by
      intro hst
      obtain ⟨s, hs, rfl⟩ := hg.static D hD n hu hst
      rcases List.mem_append.mp hs with hs | hs
      · exact hne s hs rfl
      · exact hss s hs .self
    have hbelow : ∀ c, ∃ e, c ∈ t.children n → Holds t' c e ∧ Inlined o l t D.path c e := by
      intro c
      by_cases hc : c ∈ t.children n
      · have hp := hwf.mem_children.mp hc
        obtain ⟨e, he⟩ := ih c hc (.child hp hu) (hn.child hwf hroots hne hc)
          fun s hs hus => hss s hs ((Tree.under_of_parent hp).trans hus)
        exact ⟨e, fun _ => he⟩
      · exact ⟨.mk "" [] "" .none [], fun hc' => absurd hc' hc⟩
    obtain ⟨below, hbelow⟩ := Classical.skolem.mp hbelow
    have hnode := h.node n hn hne
    refine ⟨_, ?_, .kept hother fun c hc => (hbelow c hc).2⟩
    rw [Holds]
    have hch : t'.children n = t.children n := congrArg Node.children hnode
    refine ⟨by unfold Tree.content; rw [hnode]; rfl, ?_⟩
    rw [hch]
    exact Tree.holdsAll_map fun c hc => (hbelow c hc).1

/-! ## One replacement -/

/-- What stands neither in a document nor below an import does not change when the document takes the place
    of the import. -/
theorem Spliced.node_of_apart {node root : NodeId} (h : Spliced t node root t') (hn : t.Live n) (hwf : t.WellFormed)
    (hroot : ¬ Under t root n) (hnode : ¬ Under t node n) : t'.Live n ∧ t'.node n = t.node n := by
  have hl : t'.Live n := by
    refine (h.live n).mpr ⟨hn, fun c hc hu => hnode ?_, fun he => hroot (he ▸ .self)⟩
    exact (Tree.under_of_parent (hwf.mem_children.mp hc)).trans hu
  have hne : n ≠ node := fun he => hnode (he ▸ .self)
  refine ⟨hl, Tree.node_eq_of_views ?_ ?_ ?_⟩
  · rw [h.content n hl, if_neg hne]
  · rw [h.children n hl, if_neg hne]
  · rw [h.parent? n hl, if_neg fun hp => hroot (Tree.under_of_parent hp)]

/-- An import that has been replaced holds a group with the content of the document. -/
theorem Spliced.holds {node root : NodeId} {e : Element} (h : Spliced t node root t') (hwf : t.WellFormed)
    (hn : t.Live node) (hr : t.parent? root = none) (hout : ¬ Under t root node) (he : Holds t root e) :
    Holds t' node (.mk "items" ((t.node node).attrs.filter fun a => a.1 == "name") "" (t.computed node) e.children) := by
  have habove : ∀ c ∈ t.children node, ¬ Under t c node := fun c hc =>
    hwf.not_under_parent (hwf.mem_children.mp hc)
  have hne : node ≠ root := fun he => hout (he ▸ .self)
  have hl : t'.Live node := (h.live node).mpr ⟨hn, habove, hne⟩
  rw [Holds, h.content node hl, if_pos rfl, h.children node hl, if_pos rfl]
  refine ⟨rfl, he.children.congr_views hwf fun c hc m hm => ?_⟩
  -- what stands below the root, the root apart, has only moved
  have hp := hwf.mem_children.mp hc
  have hu := (Tree.under_of_parent hp).trans hm
  have hmr : m ≠ root := fun he => hwf.not_under_parent hp (he ▸ hm)
  have hmn : m ≠ node := fun he => hout (he ▸ hu)
  have hnot : ¬ Under t node m := by
    intro hu'
    rcases hu.comparable hu' with hc | hc
    · exact hout hc
    · exact hne (hc.eq_of_root hr).symm
  have hlm : t'.Live m := by
    refine (h.live m).mpr ⟨(hwf.live_of_under (hwf.live_of_parent hp).1 hm), fun c' hc' hu' => hnot ?_, hmr⟩
    exact (Tree.under_of_parent (hwf.mem_children.mp hc')).trans hu'
  rw [h.content m hlm, if_neg hmn, h.children m hlm, if_neg hmn]
  exact ⟨rfl, rfl⟩

/-- The import `s` of the tree `t` is replaced by a document that holds `e`. -/
structure Replacement (t : Tree) (s : Splice) (e : Element) (t' : Tree) : Prop where
  wellFormed : t'.WellFormed
  live : t'.Live s.node
  parent? : t'.parent? s.node = t.parent? s.node
  holds : Holds t' s.node (.mk "items" ((t.node s.node).attrs.filter fun a => a.1 == "name") ""
    (t.computed s.node) e.children)
  apart : ∀ n, t.Live n → ¬ Under t s.root n → ¬ Under t s.node n → t'.Live n ∧ t'.node n = t.node n

theorem replacement_of_edit {e : Element} (hwf : d.tree.WellFormed) (hn : d.tree.Live s.node)
    (hl : d.tree.Live s.root) (hr : d.tree.parent? s.root = none) (hout : ¬ Under d.tree s.root s.node)
    (h : edit o load s.node s.root s.origin d = .ok () d') (he : Holds d'.tree s.root e) :
    Replacement d.tree s e (spliceInto d'.tree s.node s.root) := by
  have hB := closed_beyond hwf hr
  have hed := edited_edit hwf hB hr (fun hb => hb.2 .self) h
  have hunder : ∀ a n, Beyond d.tree s.root n → (Under d'.tree a n ↔ Under d.tree a n) := fun a n hb =>
    hB.toUpward.under (fun m hm => ⟨(hed.keeps m hm).1, hed.keeps.parent? hm⟩) hb
  have hnode : Beyond d.tree s.root s.node := ⟨hn, hout⟩
  have hout' : ¬ Under d'.tree s.root s.node := by rwa [hunder _ _ hnode]
  have hn' := hed.live _ hn
  have hr' := hed.root _ hr
  have hsp := spliced_spliceInto hed.wellFormed hn' (hed.live _ hl) hr' hout'
  have hln : (spliceInto d'.tree s.node s.root).Live s.node := by
    refine (hsp.live _).mpr ⟨hn', fun c hc => ?_, fun he => hout (he ▸ .self)⟩
    exact hed.wellFormed.not_under_parent (hed.wellFormed.mem_children.mp hc)
  refine ⟨hsp.wellFormed, hln, ?_, ?_, fun n hn hur hun => ?_⟩
  · rw [hsp.parent? _ hln, if_neg fun hp => hout' (Tree.under_of_parent hp), hed.keeps.parent? hnode]
  · have hh := hsp.holds hed.wellFormed hn' hr' hout' he
    unfold Tree.computed at hh ⊢
    rwa [(hed.keeps _ hnode).2] at hh
  · have hb : Beyond d.tree s.root n := ⟨hn, hur⟩
    obtain ⟨hl', hn'⟩ := hed.keeps n hb
    obtain ⟨hl'', hn''⟩ := hsp.node_of_apart hl' hed.wellFormed (by rwa [hunder _ _ hb]) (by rwa [hunder _ _ hb])
    exact ⟨hl'', hn''.trans hn'⟩

theorem next_mem : s ∈ done ++ s :: ss := List.mem_append_right done List.mem_cons_self

section

variable (hwf : t.WellFormed) (hp : Pending t (done ++ s :: ss)) (h : Midway o l t done d.tree)

include hp

theorem before_next {s' : Splice} (hs' : s' ∈ done) :
    ¬ Under t s'.node s.node ∧ ¬ Under t s'.root s.node ∧ s'.root ≠ s.root :=
  (List.pairwise_append.mp hp.order).2.2 s' hs' s List.mem_cons_self

theorem behind_next {s' : Splice} (hs' : s' ∈ ss) : ¬ Under t s.node s'.node ∧ ¬ Under t s.root s'.node :=
  have ho := (List.pairwise_cons.mp (List.pairwise_append.mp hp.order).2.1).1 s' hs'
  ⟨ho.1, ho.2.1⟩

/-- The import whose turn it is still stands. -/
theorem standing_node : Standing t done s.node :=
  ⟨hp.live_node s (next_mem), fun _ hs' => (before_next hp hs').2.1,
    fun _ hs' hu => absurd hu (before_next hp hs').1⟩

/-- So does the document that it names. -/
theorem standing_root : Standing t done s.root :=
  have hr := hp.parent?_root s (next_mem)
  ⟨hp.live_root s (next_mem), fun _ hs' hu => (before_next hp hs').2.2 (hu.eq_of_root hr).symm,
    fun _ _ hu => hu.eq_of_root hr⟩

include h hwf

/-- When an import is replaced, the document is what inlining says. -/
theorem Midway.inlined_next (hg : Gathered o l t docs [] (done ++ s :: ss))
    (he : edit o load s.node s.root s.origin d = .ok () d') (hl : d'.library.Extends load l) :
    ∃ e, Replacement d.tree s e (spliceInto d'.tree s.node s.root)
      ∧ Inlined o l t s.origin s.node
        (.mk "items" ((t.node s.node).attrs.filter fun a => a.1 == "name") "" (t.computed s.node) e.children) := by
  have hs : s ∈ done ++ s :: ss := next_mem
  have hroots : ∀ s' ∈ done, t.parent? s'.root = none := fun s' hs' =>
    hp.parent?_root s' (List.mem_append_left _ hs')
  have hne : ∀ s' ∈ done, s'.node ≠ s.node := fun s' hs' he => (before_next hp hs').1 (he ▸ .self)
  have hsn := standing_node hp
  have hsr := standing_root hp
  have hr := hp.parent?_root s hs
  -- nothing is left to be replaced in the document and in the rules
  obtain ⟨D, ⟨name, e, htarget, rfl, hfind, hholds⟩, hD⟩ := hg.named s hs
  replace hD := hD.resolve_right fun ⟨_, hu, _⟩ => (nomatch hu)
  obtain ⟨e₁, he₁, hi₁⟩ := h.exists_inlined hwf hroots hg hD .self hsr (by
    rintro s' (_ | ⟨_, hs'⟩)
    · exact hp.outside s hs
    · exact (behind_next hp hs').2)
  obtain ⟨hst, D', hD', hu'⟩ := hg.stands s hs
  have hbelow : ∀ c, ∃ e, c ∈ t.children s.node → Holds d.tree c e ∧ Inlined o l t s.origin c e := by
    intro c
    by_cases hc : c ∈ t.children s.node
    · have hpc := hwf.mem_children.mp hc
      obtain ⟨e, he⟩ := h.exists_inlined hwf hroots hg hD' (.child hpc hu') (hsn.child hwf hroots hne hc) (by
        rintro s' (_ | ⟨_, hs'⟩)
        · exact hwf.not_under_parent hpc
        · exact fun hu => (behind_next hp hs').1 ((Tree.under_of_parent hpc).trans hu))
      rw [← hg.origin D' hD' s hs hu'] at he
      exact ⟨e, fun _ => he⟩
    · exact ⟨.mk "" [] "" .none [], fun hc' => absurd hc' hc⟩
  obtain ⟨below, hbelow⟩ := Classical.skolem.mp hbelow
  -- the same in the tree as it is now
  have hnode := h.node s.node hsn hne
  have hchildren : d.tree.children s.node = t.children s.node := congrArg Node.children hnode
  have hout : ¬ Under d.tree s.root s.node := by
    rw [h.under hwf hsn]
    exact hp.outside s hs
  have hrules : HoldsAll d.tree (d.tree.children s.node) ((t.children s.node).map below) := by
    rw [hchildren]
    exact Tree.holdsAll_map fun c hc => (hbelow c hc).1
  have hr' := (h.parent? _ hsr).trans hr
  obtain ⟨e₂, he₂, hh₂⟩ := edited_of_edit h.wellFormed (h.live _ hsr) hr' hout he₁ hrules he hl
  refine ⟨e₂, replacement_of_edit h.wellFormed (h.live _ hsn) (h.live _ hsr) hr' hout he hh₂, ?_⟩
  have hg' := Tree.grafted_ofElement e
  obtain ⟨f, ha, hf⟩ := Tree.exists_alike hwf hg'.wellFormed hsr.live hg'.live_root hr hg'.parent?_root
    hholds hg'.holds
  refine .replaced hst (fun c hc => (hbelow c hc).2) htarget hfind (hf ▸ hi₁.alike ha .self) ?_
  have hattr : d.tree.attr? s.node "transform" = t.attr? s.node "transform" := by
    unfold Tree.attr?
    rw [hnode]
  rwa [← hattr]

/-- One more import is replaced. -/
theorem Midway.advance {e : Element} (hrep : Replacement d.tree s e t')
    (hi : Inlined o l t s.origin s.node
      (.mk "items" ((t.node s.node).attrs.filter fun a => a.1 == "name") "" (t.computed s.node) e.children)) :
    Midway o l t (done ++ [s]) t' := by
  have hm : s ∈ done ++ [s] := List.mem_append_right done List.mem_cons_self
  have hsn := standing_node hp
  have hr := hp.parent?_root s (next_mem)
  -- what stands afterwards, the import apart, has not changed
  have hrest : ∀ n, Standing t (done ++ [s]) n → n ≠ s.node → t'.Live n ∧ t'.node n = d.tree.node n := by
    intro n hn hne
    have hn' := hn.of_append
    refine hrep.apart n (h.live n hn') ?_ ?_
    · rw [h.under hwf hn']
      exact hn.root s hm
    · rw [h.under hwf hn']
      exact fun hu => hne (hn.node s hm hu)
  refine ⟨hrep.wellFormed, fun n hn => ?_, fun n hn => ?_, fun n hn hnot => ?_, fun s' hs' hn => ?_⟩
  · by_cases hns : n = s.node
    · exact hns ▸ hrep.live
    · exact (hrest n hn hns).1
  · rw [← h.parent? n hn.of_append]
    by_cases hns : n = s.node
    · exact hns ▸ hrep.parent?
    · unfold Tree.parent?
      rw [(hrest n hn hns).2]
  · rw [(hrest n hn (hnot s hm).symm).2]
    exact h.node n hn.of_append fun s' hs' => hnot s' (List.mem_append_left _ hs')
  · rcases List.mem_append.mp hs' with hs' | hs'
    · -- an import that was replaced before, and is not below this one, keeps what it holds
      have hn' := hn.of_append
      obtain ⟨e', he', hi'⟩ := h.replaced s' hs' hn'
      refine ⟨e', he'.congr h.wellFormed fun n hu => ?_, hi'⟩
      refine (hrep.apart n (h.wellFormed.live_of_under (h.live _ hn') hu) (fun hur => ?_) fun hun => ?_).2
      · rcases hur.comparable hu with hc | hc
        · exact hn.root s hm ((h.under hwf hn').mp hc)
        · have he := hc.eq_of_root ((h.parent? _ (standing_root hp)).trans hr)
          exact hn.root s hm (he ▸ .self)
      · rcases hun.comparable hu with hc | hc
        · have he := hn.node s hm ((h.under hwf hn').mp hc)
          exact (before_next hp hs').1 (he ▸ .self)
        · exact (before_next hp hs').1 ((h.under hwf hsn).mp hc)
    · obtain rfl := List.mem_singleton.mp hs'
      refine ⟨_, ?_, hi⟩
      have hh := hrep.holds
      unfold Tree.computed at hh ⊢
      rwa [h.node _ hsn fun s' hs' he => (before_next hp hs').1 (he ▸ .self)] at hh

end

/-! ## All replacements -/

theorem extends_spliceAll (h : spliceAll o load ss d = .ok () d') : d.library.Extends load d'.library := by
  induction ss generalizing d with
  | nil =>
    obtain ⟨-, rfl⟩ := Action.pure_eq_ok.mp h
    exact .refl
  | cons s ss ih =>
    obtain ⟨_, d₁, h₁, h⟩ := Action.bind_eq_ok.mp h
    rw [modifyTree, Action.modify_bind_eq_ok] at h
    exact (extends_edit h₁).trans (ih (d := { d₁ with tree := spliceInto d₁.tree s.node s.root }) h)

theorem midway_spliceAll (hwf : t.WellFormed) (hp : Pending t (done ++ ss)) (h : Midway o l t done d.tree)
    (hg : Gathered o l t docs [] (done ++ ss)) (hs : spliceAll o load ss d = .ok () d')
    (hl : d'.library.Extends load l) : Midway o l t (done ++ ss) d'.tree := by
  induction ss generalizing d done with
  | nil =>
    obtain ⟨-, rfl⟩ := Action.pure_eq_ok.mp hs
    rw [List.append_nil]
    exact h
  | cons s ss ih =>
    obtain ⟨_, d₁, h₁, hs⟩ := Action.bind_eq_ok.mp hs
    rw [modifyTree, Action.modify_bind_eq_ok] at hs
    obtain ⟨e, hrep, hi⟩ := h.inlined_next hwf hp hg h₁
      ((extends_spliceAll (d := { d₁ with tree := spliceInto d₁.tree s.node s.root }) hs).trans hl)
    have hadvanced := h.advance hwf hp hrep hi
    have hnext : done ++ s :: ss = done ++ [s] ++ ss := by rw [List.append_assoc]; rfl
    rw [hnext] at hp hg ⊢
    exact ih (d := { d₁ with tree := spliceInto d₁.tree s.node s.root }) hp hadvanced hg hs

/-- What is kept was there before. -/
theorem keeps_symm {P : NodeId → Prop} (hc : Closed t P) (h : Keeps P t t') : Keeps P t' t :=
  fun n hn => ⟨hc.live n hn, (h n hn).2.symm⟩

/-- Replacing the static imports of a document inlines them: afterwards, the root holds the one element that the
    recursion describes.  The documents that imports name were kept or can be read.  Every other document is as
    it was, and so is every node of this one that stands neither below an import nor is one. -/
theorem resolve_inlines (hwf : d.tree.WellFormed) (hl : d.tree.Live document.root)
    (hr : d.tree.parent? document.root = none) (h : resolve o load document d = .ok () d') :
    d'.tree.WellFormed
      ∧ (∀ e, Inlined o d'.library d.tree document.path document.root e ↔ e = d'.tree.element document.root)
      ∧ d.library.Extends load d'.library
      ∧ (∀ n, d.tree.Live n → ¬ Under d.tree document.root n → d'.tree.Live n ∧ d'.tree.node n = d.tree.node n)
      ∧ ∀ n, Under d.tree document.root n → (∀ m, Under d.tree m n → ¬ IsStatic d.tree m) →
          d'.tree.Live n ∧ d'.tree.node n = d.tree.node n := by
  obtain ⟨ss, d₁, h₁, h₂⟩ := Action.bind_eq_ok.mp h
  have hdoc := Tree.closed_document hwf hl hr
  obtain ⟨hwf₁, hk, hp, -, hne⟩ := pending_read hwf hl hr Tree.closed_none id h₁
  obtain ⟨hext₁, docs, hD, hg⟩ := gathered_read hwf hl hr h₁
  have hext₂ := extends_spliceAll h₂
  have hstart : Midway o d'.library d₁.tree [] d₁.tree := .start hwf₁
  have hm : Midway o d'.library d₁.tree ([] ++ ss) d'.tree :=
    midway_spliceAll hwf₁ hp hstart (hg.extends hext₂.keeps) h₂ .refl
  rw [List.nil_append] at hm
  have hkD : Keeps (Under d.tree document.root) d.tree d₁.tree := fun n hn => hk n (hdoc.live n hn)
  have hunder : ∀ {m n}, Under d.tree document.root n → (Under d₁.tree m n ↔ Under d.tree m n) :=
    fun hn => hdoc.toUpward.under (fun k hk => ⟨(hkD k hk).1, hkD.parent? hk⟩) hn
  have hr₁ : d₁.tree.parent? document.root = none := (hkD.parent? .self).trans hr
  -- no document that was read stands around a node of this one
  have hroots : ∀ n, Under d.tree document.root n → ∀ s ∈ ss, ¬ Under d₁.tree s.root n := by
    intro n hn s hs hu
    refine hne s hs (Under.root_unique (hp.parent?_root s hs) hr₁ hu ?_)
    rwa [hunder hn]
  have hstanding : Standing d₁.tree ss document.root :=
    ⟨(hkD _ .self).1, hroots _ .self, fun s _ hu => hu.eq_of_root hr₁⟩
  have hg' : Gathered o d'.library d₁.tree docs [] (ss ++ []) := by
    rw [List.append_nil]
    exact hg.extends hext₂.keeps
  obtain ⟨e, he, hi⟩ := hm.exists_inlined hwf₁ hp.parent?_root hg' hD .self hstanding fun _ hs => (nomatch hs)
  have halike := (keeps_symm hdoc hkD).alike hwf₁ hwf (hkD.closed hdoc hwf hwf₁)
  have hi' : Inlined o d'.library d.tree document.path document.root e := hi.alike halike .self
  refine ⟨hm.wellFormed, fun e' => ⟨fun hi'' => ?_, ?_⟩, hext₁.trans hext₂, fun n hn hnot => ?_, fun n hn hno => ?_⟩
  · rw [hi''.unique hi', he.eq_element hm.wellFormed]
  · rintro rfl
    rwa [he.eq_element hm.wellFormed]
  · have hB := closed_beyond hwf hr
    exact (spared_resolve hwf hl hr hB (fun hb => hb.2 .self) h).keeps n ⟨hn, hnot⟩
  · have habove : ∀ s ∈ ss, ¬ Under d₁.tree s.node n := by
      intro s hs hu
      have hu' := (hunder hn).mp hu
      exact hno s.node hu' ((isStatic_alike halike (hdoc.toUpward.of_under hu' hn)).mpr (hg.stands s hs).1)
    have hs : Standing d₁.tree ss n := ⟨(hkD n hn).1, hroots n hn, fun s hs hu => absurd hu (habove s hs)⟩
    exact ⟨hm.live n hs, (hm.node n hs fun s hs he => habove s hs (he ▸ .self)).trans (hkD n hn).2⟩

/-! ### A document in a document in a document -/

/-- A document that imports `/b`, whose fields a rule sets to 7. -/
def outer : Element :=
  .mk "format" [] "" .none
    [.mk "import" [("type", "xml"), ("name", "m"), ("target", "/b")] "" .none
      [.mk "map" [("from", "//item"), ("type", "text")] "7" .none []]]

/-- `/b` imports `/c`, which has one field. -/
def inner : Loader
  | "/b" => .ok (.mk "format" [] "" .none [.mk "import" [("type", "xml"), ("target", "/c")] "" .none []])
  | "/c" => .ok (.mk "format" [] "" .none [.mk "item" [("name", "x")] "" .none []])
  | _ => .error (.of .exhausted)

theorem resolve_inlines_outer :
    let o : Options := .standard ⟨2000, 1, 1, 0, 0, 0, 0⟩
    ∃ d', resolve o inner ⟨0, none⟩ ⟨Tree.ofElement outer, .empty⟩ = .ok () d'
      ∧ (d'.tree.descendants 0).map d'.tree.name = ["items", "items", "item"] ∧ d'.tree.stringValue 0 = "7"
      ∧ ∀ e, Inlined o d'.library (Tree.ofElement outer) none 0 e ↔ e = d'.tree.element 0 := by
  intro o
  have hg := Tree.grafted_ofElement outer
  have hrun : Action.succeeds (resolve o inner ⟨0, none⟩ ⟨Tree.ofElement outer, .empty⟩)
      (fun _ d' => (d'.tree.descendants 0).map d'.tree.name = ["items", "items", "item"]
        && d'.tree.stringValue 0 = "7") = true := by
    decide +kernel
  obtain ⟨_, d', h, hchecks⟩ := Action.succeeds_iff.mp hrun
  obtain ⟨hnames, htext⟩ := Bool.and_eq_true_iff.mp hchecks
  obtain ⟨-, helement, -⟩ := resolve_inlines hg.wellFormed hg.live_root hg.parent?_root h
  exact ⟨d', h, of_decide_eq_true hnames, of_decide_eq_true htext, helement⟩

end Stencil.Import
