/-
  Elements put into a tree, and read off it.

  `Holds t id e` says that the node `id` with everything below it is a copy of the element `e`.  Each
  way of putting an element into a tree makes such a copy of slots that were not in use (`grown_graft`,
  `holds_graft`, `holds_ofElement`), and reading an element off a node gives an element that the node
  holds (`holds_element`).  While elements are put in, a tree only grows: `Grown t ps t'` says that
  `t'` has new nodes below the nodes `ps` and is otherwise `t`.
-/
import Stencil.Proofs.Tree.Slots
import Stencil.Tree.Element

set_option autoImplicit false

namespace Stencil.Tree

variable {t t' : Tree} {id n p : NodeId} {ps : List NodeId}

/-! ## Copies -/

mutual

/-- The node `id`, with everything below it, is a copy of an element. -/
def Holds (t : Tree) (id : NodeId) : Element → Prop
  | .mk n a x c cs => t.content id = ⟨n, a, x, [], none, c⟩ ∧ HoldsAll t (t.children id) cs

/-- The nodes of a list are copies of the elements of another, one by one. -/
def HoldsAll (t : Tree) : List NodeId → List Element → Prop
  | [], [] => True
  | id :: ids, e :: es => Holds t id e ∧ HoldsAll t ids es
  | [], _ :: _ => False
  | _ :: _, [] => False

end

theorem Holds.content {e : Element} (h : Holds t id e) : t.content id = e.toNode none := by
  cases e
  rw [Holds] at h
  exact h.1

theorem Holds.children {e : Element} (h : Holds t id e) :
    HoldsAll t (t.children id) e.children := by
  cases e
  rw [Holds] at h
  exact h.2

theorem HoldsAll.eq_nil_iff {ids : List NodeId} {es : List Element} (h : HoldsAll t ids es) :
    ids = [] ↔ es = [] := by
  cases ids <;> cases es <;> simp_all [HoldsAll]

mutual

/-- A copy stays one as long as no node of it changes. -/
theorem Holds.congr (hwf : WellFormed t) : ∀ {e : Element} {id : NodeId}, Holds t id e →
    (∀ n, Under t id n → t'.node n = t.node n) → Holds t' id e
  | .mk _ _ _ _ cs, id, h, heq => by
    rw [Holds] at h ⊢
    have hid := heq id .self
    refine ⟨?_, ?_⟩
    · rw [← h.1]
      unfold Tree.content
      rw [hid]
    · have hc : t'.children id = t.children id := by unfold Tree.children; rw [hid]
      rw [hc]
      refine HoldsAll.congr hwf h.2 fun c hcm n hn => heq n ?_
      exact (under_of_parent (hwf.mem_children.mp hcm)).trans hn

theorem HoldsAll.congr (hwf : WellFormed t) : ∀ {es : List Element} {ids : List NodeId},
    HoldsAll t ids es → (∀ i ∈ ids, ∀ n, Under t i n → t'.node n = t.node n) → HoldsAll t' ids es
  | [], [], _, _ => by rw [HoldsAll]; trivial
  | [], _ :: _, h, _ => by rw [HoldsAll] at h; exact h.elim
  | _ :: _, [], h, _ => by rw [HoldsAll] at h; exact h.elim
  | e :: es, i :: is, h, heq => by
    rw [HoldsAll] at h ⊢
    refine ⟨Holds.congr hwf h.1 (heq i List.mem_cons_self), HoldsAll.congr hwf h.2 ?_⟩
    exact fun j hj => heq j (List.mem_cons_of_mem _ hj)

end

/-! ## Growing -/

/-- `after` is the tree `t` with new nodes below the nodes `ps`, behind the children they have. -/
structure Grown (t : Tree) (ps : List NodeId) (after : Tree) : Prop where
  wellFormed : WellFormed after
  live : ∀ n, t.Live n → after.Live n
  node : ∀ n, t.Live n → n ∉ ps → after.node n = t.node n
  content : ∀ n, t.Live n → after.content n = t.content n
  parent? : ∀ n, t.Live n → after.parent? n = t.parent? n
  new : ∀ n, after.Live n → ¬ t.Live n → ∃ p ∈ ps, Under after p n

namespace Grown

variable {t₁ t₂ : Tree}

theorem refl (h : WellFormed t) (ps : List NodeId) : Grown t ps t where
  wellFormed := h
  live := fun _ hn => hn
  node := fun _ _ _ => rfl
  content := fun _ _ => rfl
  parent? := fun _ _ => rfl
  new := fun _ hn hnot => absurd hn hnot

theorem mono {qs : List NodeId} (h : Grown t ps t') (hsub : ∀ p ∈ ps, p ∈ qs) : Grown t qs t' where
  wellFormed := h.wellFormed
  live := h.live
  node := fun n hn hnot => h.node n hn fun hm => hnot (hsub n hm)
  content := h.content
  parent? := h.parent?
  new := by
    intro n hn hnot
    obtain ⟨p, hp, hu⟩ := h.new n hn hnot
    exact ⟨p, hsub p hp, hu⟩

/-- What stands below a node still does. -/
theorem under (h : Grown t ps t') (hwf : WellFormed t) {a : NodeId} (hn : t.Live n)
    (hu : Under t a n) : Under t' a n := by
  induction hu with
  | self => exact .self
  | child hp _ ih => exact .child ((h.parent? _ hn).trans hp) (ih (hwf.live_of_parent hp).2)

/-- Growing below `ps`, and then below nodes `qs` that are among `ps` or new. -/
theorem trans {qs : List NodeId} (h : Grown t ps t₁) (h' : Grown t₁ qs t₂)
    (hqs : ∀ q ∈ qs, q ∈ ps ∨ t₁.Live q ∧ ¬ t.Live q) : Grown t ps t₂ where
  wellFormed := h'.wellFormed
  live := fun n hn => h'.live n (h.live n hn)
  node := by
    intro n hn hnot
    refine (h'.node n (h.live n hn) fun hm => ?_).trans (h.node n hn hnot)
    rcases hqs n hm with hp | hq
    · exact hnot hp
    · exact hq.2 hn
  content := fun n hn => (h'.content n (h.live n hn)).trans (h.content n hn)
  parent? := fun n hn => (h'.parent? n (h.live n hn)).trans (h.parent? n hn)
  new := by
    -- a new node of the first step is below `ps`; so is one of the second, if below such a node
    have first : ∀ n, t₁.Live n → ¬ t.Live n → ∃ p ∈ ps, Under t₂ p n := by
      intro n hn hnot
      obtain ⟨p, hp, hu⟩ := h.new n hn hnot
      exact ⟨p, hp, h'.under h.wellFormed hn hu⟩
    intro n hn hnot
    by_cases h₁ : t₁.Live n
    · exact first n h₁ hnot
    · obtain ⟨q, hq, hu⟩ := h'.new n hn h₁
      rcases hqs q hq with hp | hq
      · exact ⟨q, hp, hu⟩
      · obtain ⟨p, hp, hpq⟩ := first q hq.1 hq.2
        exact ⟨p, hp, hpq.trans hu⟩

end Grown

/-- A new node below `p`. -/
theorem Allocated.grown {node : Node} (h : Allocated t node id t')
    (hp : node.parent = some p) : Grown t [p] t' where
  wellFormed := h.wellFormed
  live := fun n hn => (h.live n).mpr (.inr hn)
  node := by
    intro n hn hnot
    refine h.node_of_ne n (fun he => h.fresh (he ▸ hn)) ?_
    rw [hp]
    rintro he
    exact hnot (by rw [Option.some.inj he]; simp)
  content := by
    intro n hn
    by_cases hnp : n = p
    · unfold Tree.content
      rw [hnp, h.node_parent p hp]
    · have hn' : node.parent ≠ some n := by rw [hp]; exact fun he => hnp (Option.some.inj he).symm
      unfold Tree.content
      rw [h.node_of_ne n (fun he => h.fresh (he ▸ hn)) hn']
  parent? := by
    intro n hn
    by_cases hnp : n = p
    · unfold Tree.parent?
      rw [hnp, h.node_parent p hp]
    · have hn' : node.parent ≠ some n := by rw [hp]; exact fun he => hnp (Option.some.inj he).symm
      unfold Tree.parent?
      rw [h.node_of_ne n (fun he => h.fresh (he ▸ hn)) hn']
  new := by
    intro n hn hnot
    have he : n = id := ((h.live n).mp hn).resolve_right hnot
    refine ⟨p, List.mem_singleton_self p, .child ?_ .self⟩
    rw [he, Tree.parent?, h.node_self, hp]

/-! ## Putting elements in -/

/-- New children of a node, with nothing below them yet. -/
structure Listed (t : Tree) (p : NodeId) (ids : List NodeId) (es : List Element) (after : Tree) :
    Prop where
  grown : Grown t [p] after
  children : after.children p = t.children p ++ ids
  new : ∀ i ∈ ids, after.Live i ∧ ¬ t.Live i
  leaf : ∀ i ∈ ids, after.children i = []
  content : ids.map after.content = es.map fun e => e.toNode none

theorem WellFormed.listed (hwf : WellFormed t) (hp : t.Live p) (es : List Element) :
    Listed t p (t.allocateAll p es).1 es (t.allocateAll p es).2 := by
  induction es generalizing t with
  | nil =>
    exact ⟨.refl hwf _, (List.append_nil _).symm, fun i hi => (nomatch hi),
      fun i hi => (nomatch hi), rfl⟩
  | cons e es ih =>
    have ha : Allocated t (e.toNode (some p)) (t.allocate (e.toNode (some p))).1
        (t.allocate (e.toNode (some p))).2 := hwf.allocated rfl fun q hq => by cases hq; exact hp
    unfold allocateAll
    generalize t.allocate (e.toNode (some p)) = a at ha
    obtain ⟨id, t₁⟩ := a
    have hg : Grown t [p] t₁ := ha.grown rfl
    have hl := ih ha.wellFormed (hg.live p hp)
    generalize hr : t₁.allocateAll p es = r at hl
    obtain ⟨ids, t₂⟩ := r
    simp only [hr]
    have hid : t₁.Live id := (ha.live id).mpr (.inl rfl)
    have hidp : id ∉ [p] := by
      rw [List.mem_singleton]
      rintro rfl
      exact ha.fresh hp
    have hnode : t₂.node id = e.toNode (some p) := (hl.grown.node id hid hidp).trans ha.node_self
    have hch : t₁.children p = t.children p ++ [id] := by
      rw [children, ha.node_parent p rfl]
    refine ⟨hg.trans hl.grown fun q hq => .inl hq, ?_, ?_, ?_, ?_⟩
    · rw [hl.children, hch, List.append_assoc]
      rfl
    · intro i hi
      rcases List.mem_cons.mp hi with rfl | hi
      · exact ⟨hl.grown.live _ hid, ha.fresh⟩
      · obtain ⟨h1, h2⟩ := hl.new i hi
        exact ⟨h1, fun h3 => h2 (hg.live i h3)⟩
    · intro i hi
      rcases List.mem_cons.mp hi with rfl | hi
      · show t₂.children i = []
        rw [children, hnode]
        rfl
      · exact hl.leaf i hi
    · rw [List.map_cons, List.map_cons, hl.content]
      have hc : t₂.content id = e.toNode none := by
        unfold Tree.content
        rw [hnode]
        rfl
      rw [hc]

mutual

/-- Below a node without children that is otherwise a copy of an element, the rest is filled in. -/
theorem WellFormed.fill_spec {t : Tree} (hwf : WellFormed t) : ∀ (e : Element) {id : NodeId},
    t.Live id → t.children id = [] → t.content id = e.toNode none →
    Grown t [id] (t.fill id e) ∧ Holds (t.fill id e) id e
  | .mk n a x c cs, id, hid, hleaf, hcontent => by
    have hl := hwf.listed hid cs
    rw [fill]
    generalize t.allocateAll id cs = r at hl
    obtain ⟨ids, t₁⟩ := r
    simp only
    have hch : t₁.children id = ids := by rw [hl.children, hleaf, List.nil_append]
    have hpar : ∀ i ∈ ids, t₁.parent? i = some id := by
      intro i hi
      rw [← hl.grown.wellFormed.mem_children, hch]
      exact hi
    have hnd : ids.Nodup := hch ▸ hl.grown.wellFormed.children_nodup id
    obtain ⟨hg, hh⟩ := WellFormed.fillEach_spec hl.grown.wellFormed cs hnd hpar hl.leaf
      hl.content
    have hidn : id ∉ ids := fun hm => hl.grown.wellFormed.parent_ne (hpar id hm) rfl
    refine ⟨hl.grown.trans hg fun q hq => .inr (hl.new q hq), ?_⟩
    have hnode : (t₁.fillEach ids cs).node id = t₁.node id :=
      hg.node id (hl.grown.live id hid) hidn
    rw [Holds]
    refine ⟨?_, ?_⟩
    · have h₁ : (t₁.fillEach ids cs).content id = t₁.content id := hg.content id (hl.grown.live id hid)
      rw [h₁, hl.grown.content id hid, hcontent]
      rfl
    · have h₁ : (t₁.fillEach ids cs).children id = ids := by
        rw [Tree.children, hnode]
        exact hch
      rw [h₁]
      exact hh

theorem WellFormed.fillEach_spec {t : Tree} (hwf : WellFormed t) : ∀ (es : List Element)
    {ids : List NodeId} {p : NodeId}, ids.Nodup → (∀ i ∈ ids, t.parent? i = some p) →
    (∀ i ∈ ids, t.children i = []) → ids.map t.content = es.map (fun e => e.toNode none) →
    Grown t ids (t.fillEach ids es) ∧ HoldsAll (t.fillEach ids es) ids es
  | [], [], _, _, _, _, _ => by
    rw [fillEach]
    exact ⟨.refl hwf _, by rw [HoldsAll]; trivial⟩
  | [], _ :: _, _, _, _, _, hc => by simp at hc
  | _ :: _, [], _, _, _, _, hc => by simp at hc
  | e :: es, i :: is, p, hnd, hpar, hleaf, hc => by
    rw [List.map_cons, List.map_cons, List.cons.injEq] at hc
    obtain ⟨hni, hnd⟩ := List.nodup_cons.mp hnd
    obtain ⟨hg, hh⟩ := WellFormed.fillEach_spec hwf es hnd
      (fun j hj => hpar j (List.mem_cons_of_mem _ hj))
      (fun j hj => hleaf j (List.mem_cons_of_mem _ hj)) hc.2
    have hpi := hpar i List.mem_cons_self
    have hi : t.Live i := (hwf.live_of_parent hpi).1
    have hnode : (t.fillEach is es).node i = t.node i := hg.node i hi hni
    obtain ⟨hg', hh'⟩ := WellFormed.fill_spec hg.wellFormed e (hg.live i hi)
      (by rw [Tree.children, hnode]; exact hleaf i List.mem_cons_self)
      ((hg.content i hi).trans hc.1)
    rw [fillEach]
    refine ⟨?_, ?_⟩
    · refine (hg.mono fun j hj => List.mem_cons_of_mem _ hj).trans hg' fun q hq => .inl ?_
      rw [List.mem_singleton.mp hq]
      exact List.mem_cons_self
    · rw [HoldsAll]
      refine ⟨hh', HoldsAll.congr hg.wellFormed hh fun j hj n hn => ?_⟩
      -- what stands below a later sibling is not below `i`, where the tree grows
      have hpj : (t.fillEach is es).parent? j = some p :=
        (hg.parent? j (hwf.live_of_parent (hpar j (List.mem_cons_of_mem _ hj))).1).trans
          (hpar j (List.mem_cons_of_mem _ hj))
      have hln : (t.fillEach is es).Live n :=
        hg.wellFormed.live_of_under (hg.wellFormed.live_of_parent hpj).1 hn
      refine hg'.node n hln ?_
      rw [List.mem_singleton]
      rintro rfl
      have hpi' : (t.fillEach is es).parent? n = some p := (hg.parent? n hi).trans hpi
      have he := hg.wellFormed.siblings_disjoint hpj hpi' hn .self
      exact hni (he ▸ hj)

end

/-- What putting a copy of an element into a tree as a root does. -/
structure Grafted (t : Tree) (e : Element) (root : NodeId) (after : Tree) : Prop where
  wellFormed : WellFormed after
  fresh : ¬ t.Live root
  live_root : after.Live root
  parent?_root : after.parent? root = none
  live : ∀ n, t.Live n → after.Live n
  node : ∀ n, t.Live n → after.node n = t.node n
  new : ∀ n, after.Live n → ¬ t.Live n → Under after root n
  holds : Holds after root e

/-- What lived before stands outside the new copy. -/
theorem Grafted.not_under {e : Element} {root : NodeId} (hg : Grafted t e root t')
    (hwf : WellFormed t) (hn : t.Live n) : ¬ Under t' root n := by
  intro hu
  induction hu with
  | self => exact hg.fresh hn
  | @child p c hp _ ih =>
    rw [Tree.parent?, hg.node c hn] at hp
    exact ih (hwf.live_of_parent hp).2

theorem WellFormed.grafted (hwf : WellFormed t) (e : Element) :
    Grafted t e (t.graft none e).1 (t.graft none e).2 := by
  have ha : Allocated t (e.toNode none) (t.allocate (e.toNode none)).1
      (t.allocate (e.toNode none)).2 := hwf.allocated rfl fun q hq => (nomatch hq)
  unfold graft
  generalize t.allocate (e.toNode none) = a at ha
  obtain ⟨root, t₁⟩ := a
  simp only
  have hr : t₁.Live root := (ha.live root).mpr (.inl rfl)
  obtain ⟨hg, hh⟩ := ha.wellFormed.fill_spec e hr
    (by rw [Tree.children, ha.node_self]; rfl)
    (by unfold Tree.content; rw [ha.node_self]; rfl)
  have hne : ∀ n, t.Live n → n ∉ [root] := by
    intro n hn hm
    exact ha.fresh (List.mem_singleton.mp hm ▸ hn)
  refine ⟨hg.wellFormed, ha.fresh, hg.live root hr, ?_, ?_, ?_, ?_, hh⟩
  · rw [hg.parent? root hr, Tree.parent?, ha.node_self]
    rfl
  · exact fun n hn => hg.live n ((ha.live n).mpr (.inr hn))
  · intro n hn
    rw [hg.node n ((ha.live n).mpr (.inr hn)) (hne n hn)]
    exact ha.node_of_ne n (fun he => ha.fresh (he ▸ hn)) (fun h => (nomatch h))
  · intro n hn hnot
    by_cases h₁ : t₁.Live n
    · rw [((ha.live n).mp h₁).resolve_right hnot]
      exact .self
    · obtain ⟨p, hp, hu⟩ := hg.new n hn h₁
      rw [List.mem_singleton.mp hp] at hu
      exact hu

/-! ## Reading elements off -/

theorem holdsAll_map {f : NodeId → Element} {ids : List NodeId} (h : ∀ i ∈ ids, Holds t i (f i)) :
    HoldsAll t ids (ids.map f) := by
  induction ids with
  | nil => rw [List.map_nil, HoldsAll]; trivial
  | cons i is ih =>
    rw [List.map_cons, HoldsAll]
    exact ⟨h i List.mem_cons_self, ih fun j hj => h j (List.mem_cons_of_mem _ hj)⟩

theorem WellFormed.holds_elementWithin (h : WellFormed t) {k : Nat}
    (hk : t.nodes.size ≤ k + (t.ancestors id).length) : Holds t id (t.elementWithin k id) := by
  induction k generalizing id with
  | zero =>
    -- a live node has fewer nodes above it than there are slots
    have hid : ¬ t.Live id := by
      intro hl
      have := h.length_ancestorsWithin_lt hl t.nodes.size
      unfold ancestors at hk
      omega
    rw [elementWithin, Holds]
    refine ⟨rfl, ?_⟩
    rw [(h.bare hid).1, HoldsAll]
    trivial
  | succ k ih =>
    rw [elementWithin, Holds]
    refine ⟨rfl, holdsAll_map fun c hc => ih ?_⟩
    rw [h.ancestors_of_parent (h.mem_children.mp hc), List.length_cons]
    omega

/-- The element at a node is what the node holds. -/
theorem WellFormed.holds_element (h : WellFormed t) (id : NodeId) : Holds t id (t.element id) :=
  h.holds_elementWithin (Nat.le_add_right _ _)

/-! ## Loading documents -/

mutual

theorem WellFormed.loadInto_spec {t : Tree} (hwf : WellFormed t) : ∀ (e : Element)
    {parent : Option NodeId}, (∀ p, parent = some p → t.Live p) →
    ∃ id, ¬ t.Live id ∧ (t.loadInto parent e).Live id
      ∧ (t.loadInto parent e).parent? id = parent
      ∧ Holds (t.loadInto parent e) id e
      ∧ (∀ p, parent = some p →
          Grown t [p] (t.loadInto parent e)
          ∧ (t.loadInto parent e).children p = t.children p ++ [id])
      ∧ (parent = none → Grafted t e id (t.loadInto parent e) ∧ id = (t.allocate (e.toNode none)).1)
  | .mk n a x c cs, parent, hparent => by
    have ha : Allocated t (Element.toNode (.mk n a x c cs) parent)
        (t.allocate (Element.toNode (.mk n a x c cs) parent)).1
        (t.allocate (Element.toNode (.mk n a x c cs) parent)).2 := hwf.allocated rfl hparent
    rw [loadInto]
    show ∃ id, ¬ t.Live id ∧ _
    have hsame : t.allocate ⟨n, a, x, [], parent, c⟩
        = t.allocate (Element.toNode (.mk n a x c cs) parent) := rfl
    rw [hsame]
    generalize hr : t.allocate (Element.toNode (.mk n a x c cs) parent) = r at ha
    obtain ⟨id, t₁⟩ := r
    simp only
    have hid : t₁.Live id := (ha.live id).mpr (.inl rfl)
    have hleaf : t₁.children id = [] := by rw [Tree.children, ha.node_self]; rfl
    obtain ⟨hg, ids, hch, hall⟩ := WellFormed.loadAll_spec ha.wellFormed cs hid
    rw [hleaf, List.nil_append] at hch
    have hpar : (t₁.loadAll id cs).parent? id = parent := by
      rw [hg.parent? id hid, Tree.parent?, ha.node_self]
      rfl
    have hholds : Holds (t₁.loadAll id cs) id (.mk n a x c cs) := by
      rw [Holds, hch]
      refine ⟨?_, hall⟩
      rw [hg.content id hid]
      unfold Tree.content
      rw [ha.node_self]
      rfl
    refine ⟨id, ha.fresh, hg.live id hid, hpar, hholds, ?_, ?_⟩
    · intro p hp
      have hg₀ : Grown t [p] t₁ := ha.grown (by rw [← hp]; rfl)
      have hpl : t.Live p := hparent p hp
      have hpi : p ∉ [id] := by
        rw [List.mem_singleton]
        rintro rfl
        exact ha.fresh hpl
      refine ⟨hg₀.trans hg fun q hq => .inr ?_, ?_⟩
      · rw [List.mem_singleton.mp hq]
        exact ⟨hid, ha.fresh⟩
      · rw [Tree.children, hg.node p (hg₀.live p hpl) hpi, ha.node_parent p (by rw [← hp]; rfl)]
    · rintro rfl
      have hne : ∀ m, t.Live m → m ≠ id := fun m hm he => ha.fresh (he ▸ hm)
      refine ⟨⟨hg.wellFormed, ha.fresh, hg.live id hid, hpar, ?_, ?_, ?_, hholds⟩, ?_⟩
      · exact fun m hm => hg.live m ((ha.live m).mpr (.inr hm))
      · intro m hm
        rw [hg.node m ((ha.live m).mpr (.inr hm))
          (fun hmem => hne m hm (List.mem_singleton.mp hmem))]
        exact ha.node_of_ne m (hne m hm) (fun h => (nomatch h))
      · intro m hm hnot
        by_cases h₁ : t₁.Live m
        · rw [((ha.live m).mp h₁).resolve_right hnot]
          exact .self
        · obtain ⟨p, hp, hu⟩ := hg.new m hm h₁
          rw [List.mem_singleton.mp hp] at hu
          exact hu
      · rw [hr]

theorem WellFormed.loadAll_spec {t : Tree} (hwf : WellFormed t) : ∀ (es : List Element)
    {p : NodeId}, t.Live p →
    Grown t [p] (t.loadAll p es)
      ∧ ∃ ids, (t.loadAll p es).children p = t.children p ++ ids
        ∧ HoldsAll (t.loadAll p es) ids es
  | [], p, _ => by
    rw [loadAll]
    exact ⟨.refl hwf _, [], (List.append_nil _).symm, by rw [HoldsAll]; trivial⟩
  | e :: es, p, hp => by
    rw [loadAll]
    have hparent : ∀ q, some p = some q → t.Live q := fun q hq => Option.some.inj hq ▸ hp
    obtain ⟨id, hfresh, hid, hpar, hholds, hsome, -⟩ := WellFormed.loadInto_spec hwf e hparent
    obtain ⟨hg, hch⟩ := hsome p rfl
    obtain ⟨hg', ids, hch', hall⟩ := WellFormed.loadAll_spec hg.wellFormed es (hg.live p hp)
    refine ⟨hg.trans hg' fun q hq => .inl hq, id :: ids, ?_, ?_⟩
    · rw [hch', hch, List.append_assoc]
      rfl
    · rw [HoldsAll]
      refine ⟨Holds.congr hg.wellFormed hholds fun n hn => ?_, hall⟩
      refine hg'.node n (hg.wellFormed.live_of_under hid hn) ?_
      rw [List.mem_singleton]
      rintro rfl
      exact hg.wellFormed.not_under_parent hpar hn

end

/-- The tree that holds one document: the document's root is the node 0. -/
theorem grafted_ofElement (e : Element) : Grafted empty e 0 (ofElement e) := by
  have hparent : ∀ p, (none : Option NodeId) = some p → empty.Live p := fun p hp => nomatch hp
  obtain ⟨id, -, -, -, -, -, hnone⟩ := wellFormed_empty.loadInto_spec e hparent
  obtain ⟨hg, hid⟩ := hnone rfl
  rw [hid] at hg
  exact hg

end Stencil.Tree
