/-
  Documents are loaded in document order.

  `nextSlots t k` are the slots that the next `k` nodes get: first the free ones, the last given up first, and then
  new ones.  A document that is loaded takes them one after another in document order: its root takes the first,
  and what stands below each node the ones behind it (`nodes_loadInto`).  The induction is on the element; for the
  siblings behind it, it has to be known which slots are next when it has been loaded (`nextSlots_loadInto`).
-/
import Stencil.Proofs.Tree.Alike

set_option autoImplicit false

namespace Stencil.Tree

variable {t t' : Tree} {a n p : NodeId}

/-! ## Slots -/

/-- The slots that the next nodes get. -/
def nextSlots (t : Tree) (k : Nat) : List NodeId := t.free.take k ++ List.range' t.nodes.size (k - t.free.length)

@[simp] theorem nextSlots_zero (t : Tree) : t.nextSlots 0 = [] := by
  unfold nextSlots
  rw [Nat.zero_sub]
  rfl

/-- Whether a parent gets to know a node makes no difference to the slots. -/
theorem nextSlots_linked {k : Nat} (parent : Option NodeId) (id : NodeId) (placed : Tree)
    (h : t.nextSlots (k + 1) = id :: placed.nextSlots k) :
    t.nextSlots (k + 1) = (match parent with
      | some p => (id, placed.modifyChildren p fun cs => cs ++ [id])
      | none => (id, placed)).1 :: (match parent with
      | some p => (id, placed.modifyChildren p fun cs => cs ++ [id])
      | none => (id, placed)).2.nextSlots k := by
  cases parent with
  | none => exact h
  | some p =>
    rw [h]
    unfold nextSlots modifyChildren
    rw [free_modify, size_nodes_modify]

/-- A node gets the first of the next slots, and the others come next. -/
theorem nextSlots_succ (t : Tree) (node : Node) (k : Nat) :
    t.nextSlots (k + 1) = (t.allocate node).1 :: (t.allocate node).2.nextSlots k := by
  unfold allocate
  cases hf : t.free with
  | nil =>
    refine nextSlots_linked node.parent t.nodes.size ⟨t.nodes.push node, []⟩ ?_
    unfold nextSlots
    rw [hf, List.take_nil, List.take_nil, Array.size_push]
    exact List.range'_succ
  | cons i is =>
    refine nextSlots_linked node.parent i ⟨t.nodes.setIfInBounds i node, is⟩ ?_
    unfold nextSlots
    rw [hf, List.take_succ_cons, List.length_cons, Nat.add_sub_add_right, Array.size_setIfInBounds]
    rfl

/-- The number of elements of a list, and of those below them. -/
def sizeAll (es : List Element) : Nat := (Element.allOf es).length

theorem sizeAll_cons (e : Element) (es : List Element) : sizeAll (e :: es) = e.size + sizeAll es := by
  unfold sizeAll Element.size
  rw [Element.allOf, List.length_append]

theorem size_mk (n x : String) (as : Entries String) (c : Computed) (cs : List Element) :
    (Element.mk n as x c cs).size = sizeAll cs + 1 := by
  unfold sizeAll Element.size
  rw [Element.all, List.length_cons]

mutual

/-- When an element has been loaded, the slots behind those that it took come next. -/
theorem nextSlots_loadInto (k : Nat) : ∀ (e : Element) (t : Tree) (parent : Option NodeId),
    t.nextSlots (e.size + k) = t.nextSlots e.size ++ (t.loadInto parent e).nextSlots k
  | .mk n as x c cs, t, parent => by
    rw [size_mk, Nat.add_right_comm, loadInto, nextSlots_succ t ⟨n, as, x, [], parent, c⟩,
      nextSlots_succ t ⟨n, as, x, [], parent, c⟩, nextSlots_loadAll k cs, List.cons_append]

theorem nextSlots_loadAll (k : Nat) : ∀ (es : List Element) (t : Tree) (p : NodeId),
    t.nextSlots (sizeAll es + k) = t.nextSlots (sizeAll es) ++ (t.loadAll p es).nextSlots k
  | [], t, p => by
    rw [show sizeAll [] = 0 from rfl, Nat.zero_add, nextSlots_zero, List.nil_append, loadAll]
  | e :: es, t, p => by
    rw [sizeAll_cons, Nat.add_assoc, nextSlots_loadInto _ e t (some p), nextSlots_loadInto _ e t (some p), loadAll,
      nextSlots_loadAll k es, List.append_assoc]

end

/-! ## Nodes -/

/-- What stands below a node stays, in its order, as long as no node there gets other children. -/
theorem descendants_congr (h : WellFormed t) (h' : WellFormed t')
    (heq : ∀ n, Under t a n → t'.children n = t.children n) : t'.descendants a = t.descendants a := by
  revert heq
  refine h.induction_below (motive := fun a => (∀ n, Under t a n → t'.children n = t.children n) →
    t'.descendants a = t.descendants a) (fun a ih heq => ?_) a
  rw [h.descendants_eq, h'.descendants_eq, heq a .self]
  refine congrArg List.flatten (List.map_congr_left fun c hc => ?_)
  rw [ih c hc fun n hn => heq n ((under_of_parent (h.mem_children.mp hc)).trans hn)]

/-- A new element is the last child of its parent. -/
theorem children_loadInto (hwf : WellFormed t) (hp : t.Live p) (e : Element) :
    (t.loadInto (some p) e).children p = t.children p ++ t.nextSlots 1 := by
  obtain ⟨n, as, x, c, cs⟩ := e
  have ha : Allocated t ⟨n, as, x, [], some p, c⟩ _ _ := hwf.allocated rfl fun q hq => Option.some.inj hq ▸ hp
  obtain ⟨hg, -⟩ := WellFormed.loadAll_spec ha.wellFormed cs ((ha.live _).mpr (.inl rfl))
  have hne : p ∉ [(t.allocate ⟨n, as, x, [], some p, c⟩).1] :=
    fun hm => ha.fresh (List.mem_singleton.mp hm ▸ hp)
  rw [loadInto, Tree.children, hg.node p ((ha.live p).mpr (.inr hp)) hne, ha.node_parent p rfl,
    nextSlots_succ t ⟨n, as, x, [], some p, c⟩, nextSlots_zero]

mutual

/-- The nodes of an element that is loaded get the next slots in document order. -/
theorem nodes_loadInto : ∀ (e : Element) {t : Tree} {parent : Option NodeId}, WellFormed t →
    (∀ p, parent = some p → t.Live p) →
    (t.nextSlots 1).flatMap (fun n => n :: (t.loadInto parent e).descendants n) = t.nextSlots e.size
  | .mk n as x c cs, t, parent, hwf, hparent => by
    have ha : Allocated t ⟨n, as, x, [], parent, c⟩ _ _ := hwf.allocated rfl hparent
    have hid := (ha.live _).mpr (.inl rfl)
    obtain ⟨ids, hchildren, hnodes⟩ := nodes_loadAll cs ha.wellFormed hid
    obtain ⟨hg, -⟩ := WellFormed.loadAll_spec ha.wellFormed cs hid
    have hleaf : (t.allocate ⟨n, as, x, [], parent, c⟩).2.children (t.allocate ⟨n, as, x, [], parent, c⟩).1 = [] := by
      rw [Tree.children, ha.node_self]
    rw [hleaf, List.nil_append] at hchildren
    rw [size_mk, nextSlots_succ t ⟨n, as, x, [], parent, c⟩, nextSlots_succ t ⟨n, as, x, [], parent, c⟩, nextSlots_zero,
      List.flatMap_singleton, loadInto, hg.wellFormed.descendants_eq, hchildren, hnodes]

theorem nodes_loadAll : ∀ (es : List Element) {t : Tree} {p : NodeId}, WellFormed t → t.Live p →
    ∃ ids, (t.loadAll p es).children p = t.children p ++ ids
      ∧ ids.flatMap (fun n => n :: (t.loadAll p es).descendants n) = t.nextSlots (sizeAll es)
  | [], t, p, _, _ => by
    refine ⟨[], (List.append_nil _).symm, ?_⟩
    rw [show sizeAll [] = 0 from rfl, nextSlots_zero]
    rfl
  | e :: es, t, p, hwf, hp => by
    have hparent : ∀ q, some p = some q → t.Live q := fun q hq => Option.some.inj hq ▸ hp
    obtain ⟨id, -, hid, hpar, -, hsome, -⟩ := hwf.loadInto_spec e hparent
    obtain ⟨hg, hch⟩ := hsome p rfl
    have hfirst : t.nextSlots 1 = [id] := List.append_cancel_left ((children_loadInto hwf hp e).symm.trans hch)
    have hhere := nodes_loadInto e hwf hparent
    obtain ⟨ids, hchildren, hnodes⟩ := nodes_loadAll es hg.wellFormed (hg.live p hp)
    obtain ⟨hg', -⟩ := WellFormed.loadAll_spec hg.wellFormed es (hg.live p hp)
    -- the siblings behind the element change nothing below it
    have hkept : ((t.loadInto (some p) e).loadAll p es).descendants id = (t.loadInto (some p) e).descendants id := by
      refine descendants_congr hg.wellFormed hg'.wellFormed fun n hn => congrArg Node.children ?_
      refine hg'.node n (hg.wellFormed.live_of_under hid hn) fun hm => ?_
      rw [List.mem_singleton.mp hm] at hn
      exact hg.wellFormed.not_under_parent hpar hn
    refine ⟨id :: ids, ?_, ?_⟩
    · rw [loadAll, hchildren, hch, List.append_assoc]
      rfl
    · rw [hfirst, List.flatMap_singleton] at hhere
      rw [sizeAll_cons, nextSlots_loadInto _ e t (some p), loadAll, List.flatMap_cons, hkept, hhere, hnodes]

end

/-- A document that is loaded: its nodes, from the root on and in document order, get the next slots, and they hold
    what the document is. -/
theorem WellFormed.loaded (hwf : WellFormed t) (e : Element) :
    ∃ root, Holds (t.loadInto none e) root e ∧ root :: (t.loadInto none e).descendants root = t.nextSlots e.size := by
  have hparent : ∀ p, (none : Option NodeId) = some p → t.Live p := fun p hp => nomatch hp
  obtain ⟨root, -, -, -, hholds, -, hnone⟩ := hwf.loadInto_spec e hparent
  obtain ⟨-, hroot⟩ := hnone rfl
  have hnodes := nodes_loadInto e hwf hparent
  rw [nextSlots_succ t (e.toNode none), nextSlots_zero, ← hroot, List.flatMap_singleton] at hnodes
  exact ⟨root, hholds, hnodes⟩

end Stencil.Tree
