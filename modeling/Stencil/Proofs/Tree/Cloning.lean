/-
  Copies of nodes, made node by node.

  `Tree.deepClone` works on a list of pairs, a node and its copy, whose last one is taken first: it copies
  the children, and puts them down with their copies.  It reads the tree that it writes, and its new nodes
  take the slots that are free.  Nothing that lives is touched by that, so it does what grafting the
  element at the node does (`deepClone_eq_graft`):

    1. the children of a node are copied as the nodes of their elements are put in (`copyNodes_eq`);
    2. a pair that is taken is filled, and the pairs under it on the list are still to be taken then
       (`copyBelow_eq_fill`, by induction on the element that the node holds);
    3. there are no more rounds than slots (`size_element_le`).

  A copy, of a node of this tree or of another one, is faithful and apart from all that lived before
  (`Planted`); to give it up takes the tree back to what it was (`faithful_copies`).
-/
import Stencil.Proofs.Tree.Alike

set_option autoImplicit false

namespace Stencil.Tree

variable {t s : Tree} {id dst p : NodeId}

/-! ## Sizes -/

theorem allOf_eq_flatMap (es : List Element) : Element.allOf es = es.flatMap Element.all := by
  induction es with
  | nil => rfl
  | cons e es ih => rw [Element.allOf, ih, List.flatMap_cons]

/-- An element down to a depth has as many parts as there are nodes down to it. -/
theorem size_elementWithin (t : Tree) (k : Nat) (id : NodeId) :
    (t.elementWithin k id).size = (t.descendantsWithin k id).length + 1 := by
  induction k generalizing id with
  | zero => rfl
  | succ k ih =>
    unfold Element.size at ih ⊢
    rw [elementWithin, Element.all, allOf_eq_flatMap, descendantsWithin, List.length_cons,
      List.length_flatMap, List.length_flatMap, List.map_map]
    refine congrArg (fun l : List Nat => l.sum + 1) (List.map_congr_left fun c _ => ?_)
    exact ih c

/-- The element at a node has no more parts than there are slots. -/
theorem WellFormed.size_element_le (h : WellFormed t) (hid : t.Live id) :
    (t.element id).size ≤ t.nodes.size := by
  have hnd : (id :: t.descendants id).Nodup := by
    refine List.nodup_cons.mpr ⟨fun hm => ?_, h.nodup_descendants id⟩
    exact (h.mem_descendants.mp hm).2 rfl
  have hsub : id :: t.descendants id ⊆ List.range t.nodes.size := by
    intro n hn
    have hu : Under t id n := by
      rcases List.mem_cons.mp hn with rfl | hn
      · exact .self
      · exact (h.mem_descendants.mp hn).1
    exact List.mem_range.mpr (h.live_of_under hid hu).1
  have hle := hnd.length_le_of_subset hsub
  rw [List.length_range, List.length_cons] at hle
  have hsize : (t.element id).size = (t.descendants id).length + 1 := size_elementWithin t _ id
  omega

/-! ## Copying -/

/-- A node that holds an element is copied as the element is put in. -/
theorem copyNode_eq {e : Element} {source : NodeId} (hh : Holds t source e)
    (hsame : s.node source = t.node source) (parent : Option NodeId) :
    s.copyNode source parent = s.allocate (e.toNode parent) := by
  have hnode : { t.node source with children := [], parent } = e.toNode parent := by
    have hc := congrArg (fun n : Node => { n with parent }) hh.content
    exact hc
  rw [copyNode, hsame, hnode]

/-- Nodes that hold elements are copied as the elements are put in. -/
theorem copyNodes_eq {es : List Element} {sources : List NodeId} (hh : HoldsAll t sources es)
    (hl : ∀ i ∈ sources, t.Live i) (hkeep : Keeps t.Live t s) (hwf : WellFormed s) (hdst : s.Live dst)
    (hnew : ¬ t.Live dst) :
    s.copyNodes dst sources
      = (sources.zip (s.allocateAll dst es).1, (s.allocateAll dst es).2) := by
  induction sources generalizing es s with
  | nil =>
    rw [hh.eq_nil_iff.mp rfl]
    rfl
  | cons i is ih =>
    cases es with
    | nil => exact hh.elim
    | cons e es =>
      rw [HoldsAll] at hh
      have hi := hl i List.mem_cons_self
      have ha : Allocated s (e.toNode (some dst)) (s.allocate (e.toNode (some dst))).1
          (s.allocate (e.toNode (some dst))).2 := hwf.allocated rfl fun q hq => by cases hq; exact hdst
      rw [copyNodes, allocateAll, copyNode_eq hh.1 (hkeep i hi).2]
      generalize s.allocate (e.toNode (some dst)) = a at ha
      obtain ⟨copy, s₁⟩ := a
      -- what lived in `t` is neither the new node nor its parent
      have hkeep₁ : Keeps t.Live t s₁ := by
        intro m hm
        obtain ⟨hms, hsame⟩ := hkeep m hm
        refine ⟨(ha.live m).mpr (.inr hms), (ha.node_of_ne m ?_ ?_).trans hsame⟩
        · rintro rfl
          exact ha.fresh hms
        · rintro hp
          exact hnew (Option.some.inj hp ▸ hm)
      dsimp only
      rw [ih hh.2 (fun j hj => hl j (List.mem_cons_of_mem _ hj)) hkeep₁ ha.wellFormed
        ((ha.live dst).mpr (.inr hdst))]
      rfl

/-- While a tree grows below new nodes, what lived before them stays as it is. -/
theorem Keeps.grown {ps : List NodeId} {s' : Tree} (hkeep : Keeps t.Live t s) (hg : Grown s ps s')
    (hnew : ∀ q ∈ ps, ¬ t.Live q) : Keeps t.Live t s' := by
  intro m hm
  obtain ⟨hms, hsame⟩ := hkeep m hm
  exact ⟨hg.live m hms, (hg.node m hms fun hq => hnew m hq hm).trans hsame⟩

mutual

/-- The pair that is taken is filled, in as many rounds as the element has parts. -/
theorem copyBelow_eq_fill : ∀ (e : Element) {source dst n : NodeId} {s : Tree}
    {pending : List (NodeId × NodeId)}, WellFormed t → Holds t source e → t.Live source →
    Keeps t.Live t s → WellFormed s → s.Live dst → ¬ t.Live dst → s.children dst = [] →
    s.copyBelow (e.size + n) ((source, dst) :: pending) = (s.fill dst e).copyBelow n pending
  | .mk name attrs x c cs, source, dst, n, s, pending, ht, hh, hsource, hkeep, hwf, hdst, hnew, hleaf => by
    rw [Holds] at hh
    have hsources : ∀ i ∈ t.children source, t.Live i :=
      fun i hi => (ht.parent_of_child source hsource i hi).1
    have hl := hwf.listed hdst cs
    have hrounds : (Element.mk name attrs x c cs).size + n = ((Element.allOf cs).length + n) + 1 := by
      unfold Element.size
      rw [Element.all, List.length_cons]
      omega
    rw [hrounds, copyBelow, hkeep.children hsource,
      copyNodes_eq hh.2 hsources hkeep hwf hdst hnew, fill]
    generalize s.allocateAll dst cs = r at hl
    obtain ⟨copies, s₁⟩ := r
    dsimp only at hl ⊢
    have hch : s₁.children dst = copies := by rw [hl.children, hleaf, List.nil_append]
    have hpar : ∀ i ∈ copies, s₁.parent? i = some dst := by
      intro i hi
      rw [← hl.grown.wellFormed.mem_children, hch]
      exact hi
    have hkeep₁ : Keeps t.Live t s₁ := hkeep.grown hl.grown fun q hq => by
      rw [List.mem_singleton.mp hq]
      exact hnew
    have hnews : ∀ i ∈ copies, ¬ t.Live i := fun i hi hti => (hl.new i hi).2 (hkeep i hti).1
    exact copyBelow_eq_fillEach cs ht hh.2 hsources hkeep₁ hl.grown.wellFormed
      (hch ▸ hl.grown.wellFormed.children_nodup dst) hpar hl.leaf hl.content hnews

theorem copyBelow_eq_fillEach : ∀ (es : List Element) {sources copies : List NodeId} {dst n : NodeId}
    {s : Tree} {pending : List (NodeId × NodeId)}, WellFormed t → HoldsAll t sources es →
    (∀ i ∈ sources, t.Live i) → Keeps t.Live t s → WellFormed s → copies.Nodup →
    (∀ i ∈ copies, s.parent? i = some dst) → (∀ i ∈ copies, s.children i = []) →
    copies.map s.content = es.map (fun e => e.toNode none) → (∀ i ∈ copies, ¬ t.Live i) →
    s.copyBelow ((Element.allOf es).length + n) ((sources.zip copies).reverse ++ pending)
      = (s.fillEach copies es).copyBelow n pending
  | [], sources, copies, dst, n, s, pending, _, hh, _, _, _, _, _, _, hc, _ => by
    have hcopies : copies = [] := by simpa using hc
    rw [hcopies, List.zip_nil_right, fillEach, Element.allOf, List.length_nil, Nat.zero_add]
    rfl
  | e :: es, [], copies, dst, n, s, pending, _, hh, _, _, _, _, _, _, _, _ => by
    rw [HoldsAll] at hh
    exact hh.elim
  | e :: es, i :: is, [], dst, n, s, pending, _, _, _, _, _, _, _, _, hc, _ => by simp at hc
  | e :: es, i :: is, c :: cs, dst, n, s, pending, ht, hh, hl, hkeep, hwf, hnd, hpar, hleaf, hc, hnew => by
    rw [HoldsAll] at hh
    rw [List.map_cons, List.map_cons, List.cons.injEq] at hc
    obtain ⟨hcs, hnd⟩ := List.nodup_cons.mp hnd
    have hpar' : ∀ j ∈ cs, s.parent? j = some dst := fun j hj => hpar j (List.mem_cons_of_mem _ hj)
    have hleaf' : ∀ j ∈ cs, s.children j = [] := fun j hj => hleaf j (List.mem_cons_of_mem _ hj)
    have hnew' : ∀ j ∈ cs, ¬ t.Live j := fun j hj => hnew j (List.mem_cons_of_mem _ hj)
    have hrounds : (Element.allOf (e :: es)).length + n = (Element.allOf es).length + (e.size + n) := by
      unfold Element.size
      rw [Element.allOf, List.length_append]
      omega
    -- the pairs of the later children lie on top
    have hpairs : ((i :: is).zip (c :: cs)).reverse ++ pending
        = (is.zip cs).reverse ++ (i, c) :: pending := by
      rw [List.zip_cons_cons, List.reverse_cons, List.append_assoc]
      rfl
    rw [hrounds, hpairs, fillEach, copyBelow_eq_fillEach es ht hh.2
      (fun j hj => hl j (List.mem_cons_of_mem _ hj)) hkeep hwf hnd hpar' hleaf' hc.2 hnew']
    obtain ⟨hg, -⟩ := hwf.fillEach_spec es hnd hpar' hleaf' hc.2
    have hlive : s.Live c := (hwf.live_of_parent (hpar c List.mem_cons_self)).1
    refine copyBelow_eq_fill e ht hh.1 (hl i List.mem_cons_self) (hkeep.grown hg hnew') hg.wellFormed
      (hg.live c hlive) (hnew c List.mem_cons_self) ?_
    rw [children, hg.node c hlive hcs]
    exact hleaf c List.mem_cons_self

end

/-- Copying a node is grafting the element at it. -/
theorem WellFormed.deepClone_eq_graft (h : WellFormed t) (hid : t.Live id) :
    t.deepClone id = t.graft none (t.element id) := by
  have ha : Allocated t ((t.element id).toNode none) (t.allocate ((t.element id).toNode none)).1
      (t.allocate ((t.element id).toNode none)).2 := h.allocated rfl fun q hq => (nomatch hq)
  rw [deepClone, graft, copyNode_eq (h.holds_element id) rfl]
  generalize t.allocate ((t.element id).toNode none) = a at ha
  obtain ⟨copy, s⟩ := a
  have hcopy : s.Live copy := (ha.live copy).mpr (.inl rfl)
  have hkeep : Keeps t.Live t s := by
    intro m hm
    refine ⟨(ha.live m).mpr (.inr hm), ha.node_of_ne m ?_ fun hp => (nomatch hp)⟩
    rintro rfl
    exact ha.fresh hm
  have hleaf : s.children copy = [] := by
    rw [children, ha.node_self]
    rfl
  obtain ⟨spare, hspare⟩ := Nat.exists_eq_add_of_le (h.size_element_le hid)
  dsimp only
  rw [hspare, copyBelow_eq_fill (t.element id) h (h.holds_element id) hid hkeep ha.wellFormed hcopy ha.fresh hleaf]
  cases spare <;> rfl

/-- A copy of a node is put into the tree as a root. -/
theorem WellFormed.grafted_deepClone (h : WellFormed t) (hid : t.Live id) :
    Grafted t (t.element id) (t.deepClone id).1 (t.deepClone id).2 := by
  rw [h.deepClone_eq_graft hid]
  exact h.grafted _

/-! ## Faithful copies -/

/-- In `after`, the new node `root` and what stands below it are a copy of an element, put behind the children of
    `parent`, or a document of their own.  Nothing else is new, and nothing that has lived is changed. -/
structure Planted (t : Tree) (parent : Option NodeId) (e : Element) (root : NodeId) (after : Tree) : Prop where
  wellFormed : WellFormed after
  parent?_root : after.parent? root = parent
  element_root : after.element root = e
  fresh : ∀ n, Under after root n → ¬ t.Live n
  live : ∀ n, after.Live n ↔ t.Live n ∨ Under after root n
  node : ∀ n, t.Live n → parent ≠ some n → after.node n = t.node n
  node_parent : ∀ p, parent = some p → after.node p = { t.node p with children := t.children p ++ [root] }

/-- To give `root` up in `after` frees the slots of `root` and of what stands below it, and no others.  What has
    lived in `t` lives then as it did, and nothing else. -/
structure GivesBack (t : Tree) (root : NodeId) (after : Tree) : Prop where
  wellFormed : WellFormed (after.release root)
  free : ∀ n, n ∈ (after.release root).free ↔ n ∈ after.free ∨ Under after root n
  live : ∀ n, (after.release root).Live n ↔ t.Live n
  node : ∀ n, t.Live n → (after.release root).node n = t.node n

/-- A copy of an element is planted wherever it is put. -/
theorem WellFormed.planted_graft (h : WellFormed t) {parent : Option NodeId}
    (hparent : ∀ p, parent = some p → t.Live p) (e : Element) :
    Planted t parent e (t.graft parent e).1 (t.graft parent e).2 := by
  have ha : Allocated t (e.toNode parent) (t.allocate (e.toNode parent)).1 (t.allocate (e.toNode parent)).2 :=
    h.allocated rfl hparent
  rw [graft]
  generalize t.allocate (e.toNode parent) = a at ha
  obtain ⟨root, s⟩ := a
  dsimp only
  have hr : s.Live root := (ha.live root).mpr (.inl rfl)
  obtain ⟨hg, hh⟩ := ha.wellFormed.fill_spec e hr (by rw [children, ha.node_self]; rfl)
    (by unfold content; rw [ha.node_self]; rfl)
  have hls : ∀ n, t.Live n → s.Live n := fun n hn => (ha.live n).mpr (.inr hn)
  have hold : ∀ n, t.Live n → (s.fill root e).node n = s.node n := by
    refine fun n hn => hg.node n (hls n hn) fun hm => ?_
    exact ha.fresh (List.mem_singleton.mp hm ▸ hn)
  have hnode : ∀ n, t.Live n → parent ≠ some n → (s.fill root e).node n = t.node n :=
    fun n hn hnp => (hold n hn).trans (ha.node_of_ne n (fun he => ha.fresh (he ▸ hn)) hnp)
  have hnode_parent : ∀ p, parent = some p →
      (s.fill root e).node p = { t.node p with children := t.children p ++ [root] } :=
    fun p hp => (hold p (hparent p hp)).trans (ha.node_parent p hp)
  have hup : ∀ n, t.Live n → (s.fill root e).parent? n = t.parent? n := by
    intro n hn
    by_cases hp : parent = some n
    · rw [parent?, hnode_parent n hp]
      rfl
    · rw [parent?, hnode n hn hp]
      rfl
  refine ⟨hg.wellFormed, ?_, hh.eq_element hg.wellFormed, fun n hu => ?_, fun n => ⟨fun hn => ?_, fun hn => ?_⟩,
    hnode, hnode_parent⟩
  · rw [hg.parent? root hr, parent?, ha.node_self]
    rfl
  · -- a chain of parents that begins at what lived stays there
    induction hu with
    | self => exact ha.fresh
    | @child p c hp _ ih =>
      intro hc
      rw [hup c hc] at hp
      exact ih (h.live_of_parent hp).2
  · by_cases hs : s.Live n
    · rcases (ha.live n).mp hs with rfl | ht
      · exact .inr .self
      · exact .inl ht
    · obtain ⟨q, hq, hu⟩ := hg.new n hn hs
      exact .inr (List.mem_singleton.mp hq ▸ hu)
  · rcases hn with hn | hu
    · exact hg.live n (hls n hn)
    · exact hg.wellFormed.live_of_under (hg.live root hr) hu

/-- What lives is what is not free. -/
theorem WellFormed.mem_free_iff (h : WellFormed t) : id ∈ t.free ↔ id < t.nodes.size ∧ ¬ t.Live id := by
  refine ⟨fun hm => ⟨h.free_lt id hm, fun hl => hl.2 hm⟩, fun ⟨hlt, hl⟩ => ?_⟩
  exact Decidable.byContradiction fun hm => hl ⟨hlt, hm⟩

/-- A planted copy can be given up, and the tree is what it was. -/
theorem Planted.givesBack {parent : Option NodeId} {e : Element} {root : NodeId} {after : Tree}
    (hp : Planted t parent e root after) (h : WellFormed t) : GivesBack t root after := by
  have hroot : after.Live root := (hp.live root).mpr (.inr .self)
  have hr := hp.wellFormed.released hroot
  have hlive : ∀ n, (after.release root).Live n ↔ t.Live n := by
    intro n
    rw [hr.live, hp.live]
    constructor
    · rintro ⟨hn | hn, hnot⟩
      · exact hn
      · exact absurd hn hnot
    · exact fun hn => ⟨.inl hn, fun hu => hp.fresh n hu hn⟩
  have hsize : (after.release root).nodes.size = after.nodes.size := by
    rw [release, size_nodes_foldl_vacate, size_nodes_detach]
  refine ⟨hr.wellFormed, fun n => ?_, hlive, fun n hn => ?_⟩
  · have hunder : Under after root n → n < after.nodes.size :=
      fun hu => (hp.wellFormed.live_of_under hroot hu).1
    rw [hr.wellFormed.mem_free_iff, hp.wellFormed.mem_free_iff, hr.live, hsize]
    by_cases hu : Under after root n
    · simp [hu, hunder hu]
    · simp [hu]
  · have hnot : ¬ Under after root n := fun hu => hp.fresh n hu hn
    -- the root of the copy is listed by its parent only, behind the children that this one has had
    have hroot_mem : ∀ q, root ∉ t.children q :=
      fun q hm => hp.fresh root .self (h.live_of_parent (h.mem_children.mp hm)).1
    have hviews : after.content n = t.content n ∧ (after.children n).erase root = t.children n
        ∧ after.parent? n = t.parent? n := by
      by_cases hpn : parent = some n
      · have hchildren : (t.children n ++ [root]).erase root = t.children n := by
          rw [List.erase_append_right _ (hroot_mem n), List.erase_cons_head, List.append_nil]
        unfold content children parent?
        rw [hp.node_parent n hpn]
        exact ⟨rfl, hchildren, rfl⟩
      · unfold content children parent?
        rw [hp.node n hn hpn]
        exact ⟨rfl, List.erase_of_not_mem (hroot_mem n), rfl⟩
    obtain ⟨hcontent, hchildren, hparent⟩ := hviews
    exact node_eq_of_views ((hr.content n hnot).trans hcontent) ((hr.children n hnot).trans hchildren)
      ((hr.parent? n hnot).trans hparent)

/-- A copy of a live node is a document of its own, and a copy of a node of another tree is the last child of a
    node, or a document.  It is the same as its source at every depth, and it is apart from all that lives.  To
    give it up takes everything back. -/
theorem faithful_copies (h : WellFormed t) :
    (∀ id, t.Live id →
        Planted t none (t.element id) (t.deepClone id).1 (t.deepClone id).2
        ∧ GivesBack t (t.deepClone id).1 (t.deepClone id).2)
      ∧ ∀ (source : Tree) (n : NodeId) (parent : Option NodeId), WellFormed source → source.Live n →
          (∀ p, parent = some p → t.Live p) →
          Planted t parent (source.element n) (t.graft parent (source.element n)).1
              (t.graft parent (source.element n)).2
          ∧ GivesBack t (t.graft parent (source.element n)).1 (t.graft parent (source.element n)).2 := by
  refine ⟨fun id hid => ?_, fun source n parent _ _ hparent => ?_⟩
  · rw [h.deepClone_eq_graft hid]
    have hnone : ∀ p, (none : Option NodeId) = some p → t.Live p := fun p hp => nomatch hp
    have hp := h.planted_graft hnone (t.element id)
    exact ⟨hp, hp.givesBack h⟩
  · have hp := h.planted_graft hparent (source.element n)
    exact ⟨hp, hp.givesBack h⟩

/-- The copies take free slots, the last one given up first: a document of five nodes has given up the nodes 1 and
    2, and node 3 with its child is copied there, by itself and from another tree. -/
theorem faithful_copies_into_free_slots :
    let loaded := ofElement (.mk "f" [] "" .none [.mk "a" [] "" .none [.mk "b" [] "" .none []],
      .mk "c" [("name", "x")] "y" .none [.mk "d" [] "z" .none []]])
    let t := loaded.release 1
    t.free = [1, 2]
      ∧ (t.deepClone 3).1 = 1 ∧ (t.deepClone 3).2.children 1 = [2]
      ∧ (t.deepClone 3).2.element 1 = t.element 3 ∧ ((t.deepClone 3).2.release 1).node 3 = t.node 3
      ∧ (t.graft (some 0) (loaded.element 3)).2.node 0 = { t.node 0 with children := [3, 1] } := by
  intro loaded t
  have hloaded : WellFormed loaded := (grafted_ofElement _).wellFormed
  have h : WellFormed t := (hloaded.released (by decide +kernel)).wellFormed
  obtain ⟨hclone, hgraft⟩ := faithful_copies h
  obtain ⟨hplanted, hback⟩ := hclone 3 (by decide +kernel)
  obtain ⟨hgrafted, -⟩ := hgraft loaded 3 (some 0) hloaded (by decide +kernel)
    fun p hp => by cases hp; decide +kernel
  have hroot : (t.deepClone 3).1 = 1 := by decide +kernel
  have helement := hplanted.element_root
  have hnode := hback.node 3 (by decide +kernel)
  rw [hroot] at helement hnode
  have hlast := hgrafted.node_parent 0 rfl
  have hchildren : t.children 0 ++ [(t.graft (some 0) (loaded.element 3)).1] = [3, 1] := by decide +kernel
  rw [hchildren] at hlast
  exact ⟨by decide +kernel, hroot, by decide +kernel, helement, hnode, hlast⟩

end Stencil.Tree
