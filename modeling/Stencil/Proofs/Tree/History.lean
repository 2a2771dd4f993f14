/-
  Trees that come about by changes.

  However a tree has come about from the empty one, it is a forest: parents and children agree, no chain of
  parents is circular, and slots that are free are not referred to.  Each change keeps the tree well formed
  (`Change.wellFormed`).  And slots are made only when none is free (`Fills`), so there are as many as there
  have ever been nodes at one time.
-/
import Mathlib.Data.Set.Card
import Mathlib.Order.Bounds.Basic
import Stencil.Proofs.Tree.Cloning

set_option autoImplicit false

namespace Stencil.Tree

variable {t t' t₁ : Tree} {id p : NodeId} {sizes : List Nat}

/-! ## Changes -/

/-- One change of a tree.  Nodes that are named live; a node that is moved is not moved below itself. -/
inductive Change (t : Tree) : Tree → Prop
  /-- The name, the attributes, the text or the computed values of a node are replaced. -/
  | content (id : NodeId) (f : Node → Node) (children : ∀ n, (f n).children = n.children)
      (parent : ∀ n, (f n).parent = n.parent) : Change t (t.modify id f)
  | addElement (parent : Option NodeId) (name : String) (live : ∀ p, parent = some p → t.Live p) :
      Change t (t.addElement parent name).2
  /-- A document is read; if reading it fails, `e` is what has been read by then. -/
  | load (e : Element) : Change t (t.loadInto none e)
  | deepClone (id : NodeId) (live : t.Live id) : Change t (t.deepClone id).2
  | graft (parent : Option NodeId) (e : Element) (live : ∀ p, parent = some p → t.Live p) :
      Change t (t.graft parent e).2
  | release (id : NodeId) (live : t.Live id) : Change t (t.release id)
  | appendChild (p id : NodeId) (live : t.Live id) (live_parent : t.Live p) (outside : ¬ Under t id p) :
      Change t (t.appendChild p id)
  | prependChild (p id : NodeId) (live : t.Live id) (live_parent : t.Live p)
      (outside : ¬ Under t id p) : Change t (t.prependChild p id)
  | detach (id : NodeId) (live : t.Live id) : Change t (t.detach id)
  | setValue (id : NodeId) (text : String) (live : t.Live id) : Change t (t.setValue id text)
  | insertAfter {t' : Tree} (anchor id : NodeId) (live : t.Live id) (live_anchor : t.Live anchor)
      (root : t.parent? id = none) (outside : ¬ Under t id anchor)
      (done : t.insertAfter anchor id = .ok t') : Change t t'

/-- The tree `t` has come about from the empty one, and `sizes` are the numbers of nodes that it has had on
    the way, the last one first. -/
inductive History : Tree → List Nat → Prop
  | empty : History .empty [0]
  | change {t t' : Tree} {sizes : List Nat} (before : History t sizes) (h : Change t t') :
      History t' (t'.size :: sizes)

/-! ## Links -/

theorem WellFormed.graft (h : WellFormed t) {parent : Option NodeId}
    (hp : ∀ p, parent = some p → t.Live p) (e : Element) : WellFormed (t.graft parent e).2 := by
  have ha : Allocated t (e.toNode parent) _ _ := h.allocated rfl hp
  have hne : parent ≠ some (t.allocate (e.toNode parent)).1 := fun heq => ha.fresh (hp _ heq)
  refine (ha.wellFormed.fill_spec e ((ha.live _).mpr (.inl rfl)) ?_ ?_).1.wellFormed
  · unfold children
    rw [ha.node_self]
    rfl
  · unfold content
    rw [ha.node_self]
    rfl

theorem WellFormed.loadInto (h : WellFormed t) (e : Element) : WellFormed (t.loadInto none e) := by
  have hnone : ∀ p : NodeId, none = some p → t.Live p := fun p hp => nomatch hp
  obtain ⟨id, -, -, -, -, -, hroot⟩ := h.loadInto_spec e hnone
  exact (hroot rfl).1.wellFormed

/-- A root is put behind a node that stands nowhere below it. -/
theorem WellFormed.insertAfter (h : WellFormed t) {anchor : NodeId} (hid : t.Live id)
    (hroot : t.parent? id = none) (hout : ¬ Under t id anchor) (hd : t.insertAfter anchor id = .ok t') :
    WellFormed t' := by
  cases hp : t.parent? anchor with
  | none =>
    have hpos : t.position? anchor = none := by
      unfold position?
      rw [hp]
    unfold Tree.insertAfter at hd
    rw [hpos] at hd
    cases hd
  | some p =>
    obtain ⟨before, after, hs⟩ := h.exists_split hp
    obtain ⟨t₁, hd', hput⟩ := h.insertAfter_root hs hid hroot fun hu => hout (hu.trans (under_of_parent hp))
    rw [hd] at hd'
    cases hd'
    exact hput.wellFormed

/-- Each change keeps a tree well formed. -/
theorem Change.wellFormed (h : WellFormed t) (hc : Change t t') : WellFormed t' := by
  cases hc with
  | content id f hch hpa => exact h.modify hch hpa id
  | addElement parent name hl => exact (h.allocated rfl hl).wellFormed
  | load e => exact h.loadInto e
  | deepClone id hl => exact (h.grafted_deepClone hl).wellFormed
  | graft parent e hl => exact h.graft hl e
  | release id hl => exact (h.released hl).wellFormed
  | appendChild p id hl hp hout => exact h.appendChild hl hp hout
  | prependChild p id hl hp hout => exact h.prependChild hl hp hout
  | detach id hl => exact h.detach id
  | setValue id text hl => exact h.setValue id text
  | insertAfter anchor id hl ha hr hout hd => exact h.insertAfter hl hr hout hd

theorem History.wellFormed (h : History t sizes) : WellFormed t := by
  induction h with
  | empty => exact wellFormed_empty
  | change _ hc ih => exact hc.wellFormed ih

/-! ## Slots -/

/-- Slots are made only when none is free: `t'` has as many as `t`, or all of them are in use. -/
structure Fills (t t' : Tree) : Prop where
  room : t'.free.length ≤ t'.nodes.size
  capacity : t'.capacity = max t.capacity t'.size

/-- In `t'` at most so many nodes live as in `t`, in the same slots. -/
theorem Fills.of_free {k : Nat} (hs : t'.nodes.size = t.nodes.size) (hf : t'.free.length = t.free.length + k)
    (hroom : t'.free.length ≤ t'.nodes.size) : Fills t t' where
  room := hroom
  capacity := by
    unfold Tree.capacity size
    omega

/-- While nodes are added, a tree fills its slots. -/
structure Filled (t t' : Tree) : Prop extends Fills t t' where
  size_le : t.size ≤ t'.size

theorem Filled.refl (h : t.free.length ≤ t.nodes.size) : Filled t t where
  room := h
  capacity := by
    unfold Tree.capacity size
    omega
  size_le := Nat.le_refl _

theorem Filled.trans (h : Filled t t₁) (h' : Filled t₁ t') : Filled t t' where
  room := h'.room
  capacity := by
    rw [h'.capacity, h.capacity]
    have := h'.size_le
    omega
  size_le := h.size_le.trans h'.size_le

/-- Whether a parent gets to know a node makes no difference to the slots that are filled. -/
theorem filled_linked (parent : Option NodeId) (placed : Tree) (hslots : placed.nodes.size = max t.nodes.size (t.size + 1))
    (hsize : placed.size = t.size + 1) (hroom : placed.free.length ≤ placed.nodes.size) (id : NodeId) :
    Filled t (match parent with
      | some p => placed.modifyChildren p fun cs => cs ++ [id]
      | none => placed) := by
  cases parent <;>
    refine { room := ?_, capacity := ?_, size_le := ?_ } <;>
      simp only [Tree.capacity, size, modifyChildren, size_nodes_modify, free_modify] at hslots hsize hroom ⊢ <;>
        omega

theorem filled_allocate (h : t.free.length ≤ t.nodes.size) (node : Node) : Filled t (t.allocate node).2 := by
  unfold allocate
  cases hf : t.free with
  | nil =>
    have := filled_linked (t := t) node.parent ⟨t.nodes.push node, []⟩ (by simp [size, hf]) (by simp [size, hf])
      (by simp) t.nodes.size
    cases hp : node.parent <;> rw [hp] at this <;> exact this
  | cons i is =>
    rw [hf, List.length_cons] at h
    have := filled_linked (t := t) node.parent ⟨t.nodes.setIfInBounds i node, is⟩ (by simp [size, hf]; omega)
      (by simp [size, hf]; omega) (by simp; omega) i
    cases hp : node.parent <;> rw [hp] at this <;> exact this

theorem filled_allocateAll (h : t.free.length ≤ t.nodes.size) (p : NodeId) (es : List Element) :
    Filled t (t.allocateAll p es).2 := by
  induction es generalizing t with
  | nil => exact .refl h
  | cons e es ih =>
    have ha := filled_allocate h (e.toNode (some p))
    exact ha.trans (ih ha.room)

mutual

theorem filled_fill {t : Tree} (h : t.free.length ≤ t.nodes.size) : ∀ (e : Element) (id : NodeId),
    Filled t (t.fill id e)
  | .mk n a x c cs, id => by
    unfold fill
    have ha := filled_allocateAll h id cs
    exact ha.trans (filled_fillEach ha.room cs _)

theorem filled_fillEach {t : Tree} (h : t.free.length ≤ t.nodes.size) : ∀ (es : List Element)
    (ids : List NodeId), Filled t (t.fillEach ids es)
  | [], ids => by
    cases ids <;> exact .refl h
  | e :: es, [] => .refl h
  | e :: es, id :: ids => by
    unfold fillEach
    have hes := filled_fillEach h es ids
    exact hes.trans (filled_fill hes.room e id)

end

theorem filled_graft (h : t.free.length ≤ t.nodes.size) (parent : Option NodeId) (e : Element) :
    Filled t (t.graft parent e).2 := by
  have ha := filled_allocate h (e.toNode parent)
  exact ha.trans (filled_fill ha.room e _)

mutual

theorem filled_loadInto {t : Tree} (h : t.free.length ≤ t.nodes.size) : ∀ (e : Element)
    (parent : Option NodeId), Filled t (t.loadInto parent e)
  | .mk n a x c cs, parent => by
    unfold loadInto
    have ha := filled_allocate h ⟨n, a, x, [], parent, c⟩
    exact ha.trans (filled_loadAll ha.room cs _)

theorem filled_loadAll {t : Tree} (h : t.free.length ≤ t.nodes.size) : ∀ (es : List Element)
    (p : NodeId), Filled t (t.loadAll p es)
  | [], p => .refl h
  | e :: es, p => by
    unfold loadAll
    have he := filled_loadInto h e (some p)
    exact he.trans (filled_loadAll he.room es p)

end

/-- The free slots of a well-formed tree are some of its slots. -/
theorem WellFormed.length_free_le (h : WellFormed t) : t.free.length ≤ t.nodes.size := by
  have hsub : t.free ⊆ List.range t.nodes.size := fun i hi => List.mem_range.mpr (h.free_lt i hi)
  simpa using (List.subperm_of_subset h.nodup_free hsub).length_le

/-- Each change makes slots only when none is free. -/
theorem Change.fills (h : WellFormed t) (hc : Change t t') : Fills t t' := by
  have hroom := (hc.wellFormed h).length_free_le
  have hwf := h
  have h := h.length_free_le
  cases hc with
  | content id f _ _ => exact .of_free (k := 0) (by simp) (by simp) hroom
  | addElement parent name _ => exact (filled_allocate h _).toFills
  | load e => exact (filled_loadInto h e none).toFills
  | deepClone id hl =>
    rw [hwf.deepClone_eq_graft hl]
    exact (filled_graft h none _).toFills
  | graft parent e _ => exact (filled_graft h parent e).toFills
  | release id _ =>
    refine .of_free (k := ((t.detach id).descendants id ++ [id]).length) ?_ ?_ hroom
    · simp only [Tree.release, size_nodes_foldl_vacate, size_nodes_detach]
    · simp only [Tree.release, free_foldl_vacate, free_detach, List.length_append, List.length_reverse]
      omega
  | appendChild p id _ _ _ =>
    exact .of_free (k := 0) (by simp [appendChild_eq_attach]) (by simp [appendChild_eq_attach]) hroom
  | prependChild p id _ _ _ =>
    exact .of_free (k := 0) (by simp [Tree.prependChild, modifyChildren, setParent])
      (by simp [Tree.prependChild, modifyChildren, setParent]) hroom
  | detach id _ => exact .of_free (k := 0) (by simp) (by simp) hroom
  | setValue id text _ => exact .of_free (k := 0) (by simp) (by simp) hroom
  | insertAfter anchor id _ _ _ _ hd =>
    unfold Tree.insertAfter at hd
    split at hd
    · dsimp only at hd
      split at hd
      · cases hd
        exact .of_free (k := 0) (by simp [attachAt, modifyChildren, setParent])
          (by simp [attachAt, modifyChildren, setParent]) hroom
      · cases hd
    · cases hd

/-- There are as many slots as there have been nodes at one time. -/
theorem History.isGreatest_capacity (h : History t sizes) : IsGreatest {n | n ∈ sizes} t.capacity := by
  induction h with
  | empty => exact ⟨by simp [Tree.capacity, Tree.empty], by simp [upperBounds]⟩
  | @change t t' sizes before hc ih =>
    have hcap := (hc.fills before.wellFormed).capacity
    obtain ⟨hmem, hle⟩ := ih
    refine ⟨?_, fun n hn => ?_⟩
    · rw [hcap]
      rcases Nat.le_total t.capacity t'.size with hlt | hlt
      · rw [Nat.max_eq_right hlt]
        exact List.mem_cons_self
      · rw [Nat.max_eq_left hlt]
        exact List.mem_cons_of_mem _ hmem
    · rcases List.mem_cons.mp hn with rfl | hn
      · rw [hcap]
        exact Nat.le_max_right _ _
      · rw [hcap]
        exact (hle hn).trans (Nat.le_max_left _ _)

/-- The size of a well-formed tree is the number of nodes that live in it. -/
theorem WellFormed.ncard_live (h : WellFormed t) : {n | t.Live n}.ncard = t.size := by
  have hset : {n | t.Live n} = (↑(Finset.range t.nodes.size \ t.free.toFinset) : Set NodeId) := by
    ext n
    simp [Live]
  have hsub : t.free.toFinset ⊆ Finset.range t.nodes.size := by
    intro n hn
    exact Finset.mem_range.mpr (h.free_lt n (List.mem_toFinset.mp hn))
  rw [hset, Set.ncard_coe_finset, Finset.card_sdiff_of_subset hsub, Finset.card_range,
    List.toFinset_card_of_nodup h.nodup_free]
  rfl

/-! ## Forests -/

/-- A tree that has come about by changes is a forest.  A live node that has a parent stands once among the
    parent's children and among no other children; the children of a live node live and point back to it; no
    chain of parents is circular; free slots are listed once, and no live node refers to one.  Its size is the
    number of nodes that live, and its capacity the greatest size that it has had. -/
theorem forest_of_history (h : History t sizes) :
    (∀ c p, t.Live c → t.parent? c = some p →
        (t.children p).count c = 1 ∧ ∀ q, q ≠ p → c ∉ t.children q)
      ∧ (∀ p, t.Live p → ∀ c ∈ t.children p, t.Live c ∧ t.parent? c = some p)
      ∧ (∀ n, ¬ Relation.TransGen (fun c p => t.parent? c = some p) n n)
      ∧ t.free.Nodup
      ∧ (∀ n, t.Live n → ∀ m, m ∈ t.children n ∨ t.parent? n = some m → m ∉ t.free)
      ∧ t.size = {n | t.Live n}.ncard
      ∧ IsGreatest {n | n ∈ sizes} t.capacity := by
  have hwf := h.wellFormed
  refine ⟨fun c p _ hp => ?_, hwf.parent_of_child, fun n hn => ?_, hwf.nodup_free, fun n hn m hm => ?_,
    hwf.ncard_live.symm, h.isGreatest_capacity⟩
  · refine ⟨List.count_eq_one_of_mem (hwf.children_nodup p) (hwf.mem_children.mpr hp), fun q hq hm => hq ?_⟩
    rw [hwf.mem_children, hp] at hm
    exact (Option.some.inj hm).symm
  · -- parents rank above their children, and so do the parents of parents
    obtain ⟨rank, hrank⟩ := hwf.exists_rank
    have hlt : ∀ {a b}, Relation.TransGen (fun c p => t.parent? c = some p) a b → rank a < rank b := by
      intro a b hab
      induction hab with
      | single h => exact hrank _ _ h
      | tail _ h ih => exact ih.trans (hrank _ _ h)
    exact Nat.lt_irrefl _ (hlt hn)
  · rcases hm with hm | hm
    · exact (hwf.parent_of_child n hn m hm).1.2
    · exact (hwf.live_of_parent hm).2.2

/-- Three nodes are read and one is added; two are given up, and their slots are used again. -/
theorem forest_of_history_reusing :
    let read := empty.loadInto none
      (.mk "a" [] "" .none [.mk "b" [] "" .none [.mk "c" [] "" .none []], .mk "d" [] "" .none []])
    let released := read.release 1
    let cloned := (released.deepClone 3).2
    let t := cloned.appendChild 0 1
    t.children 0 = [3, 1] ∧ t.capacity = 4
      ∧ History t [t.size, cloned.size, released.size, read.size, 0]
      ∧ (t.children 0).count 1 = 1 ∧ t.size = {n | t.Live n}.ncard
      ∧ IsGreatest {n | n ∈ [t.size, cloned.size, released.size, read.size, 0]} t.capacity := by
  intro read released cloned t
  have hread : History read [read.size, 0] := .change .empty (.load _)
  have hreleased : History released [released.size, read.size, 0] :=
    .change hread (.release 1 (by decide +kernel))
  have hcloned : History cloned [cloned.size, released.size, read.size, 0] :=
    .change hreleased (.deepClone 3 (by decide +kernel))
  have hroot : cloned.parent? 0 = none := by decide +kernel
  have h : History t [t.size, cloned.size, released.size, read.size, 0] :=
    .change hcloned (.appendChild 0 1 (by decide +kernel) (by decide +kernel) fun hu => by
      cases hu.eq_of_root hroot)
  obtain ⟨hcount, -, -, -, -, hsize, hcapacity⟩ := forest_of_history h
  exact ⟨by decide +kernel, by decide +kernel, h, (hcount 1 0 (by decide +kernel) (by decide +kernel)).1, hsize,
    hcapacity⟩

end Stencil.Tree
