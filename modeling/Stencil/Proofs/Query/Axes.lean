/-
  Axes and their inverses.

  No axis is computed from its inverse.  Downward axes follow the lists of children, upward ones the links to the
  parents, and siblings are told by a position in a list of children.  That they agree is what a well-formed tree is
  good for.

    1. **Walks** — what stands below a node is what a stack of nodes yields, if the children of each node that is
       taken off are put there instead (`unstacked_descendants`).  What stands above a node or beside it is found
       link by link (`linked_ancestors`, `linked_followingSiblings`, `linked_precedingSiblings`).
    2. **Inverses** — between nodes that have a place in the tree a link downward is a link upward, so chains of
       links are too; siblings follow and precede each other in one list of children (`axes_inverse`).
-/
import Stencil.Proofs.Query.Order

set_option autoImplicit false

namespace Stencil.Query

variable {t : Tree} {n x y : NodeRef} {id : NodeId}

/-! ## Walks -/

/-- What comes off a stack, if the children of each node that is taken off are put there instead. -/
inductive Unstacked (t : Tree) : List NodeRef → List NodeRef → Prop
  | done : Unstacked t [] []
  | take {n : NodeRef} {stack out : List NodeRef} (rest : Unstacked t (n.children t ++ stack) out) :
      Unstacked t (n :: stack) (n :: out)

/-- What is found link by link, until there is no further one. -/
inductive Linked {α : Type} (next? : α → Option α) : α → List α → Prop
  | done {a : α} (last : next? a = none) : Linked next? a []
  | link {a b : α} {found : List α} (next : next? a = some b) (rest : Linked next? b found) :
      Linked next? a (b :: found)

/-- A list of nodes on top of a stack comes off with all that stands below each, if that is so for each of them. -/
theorem Unstacked.append {ns stack out : List NodeRef} (h : Unstacked t stack out)
    (hns : ∀ n ∈ ns, ∀ {stack out}, Unstacked t stack out → Unstacked t (n :: stack) (n :: n.descendants t ++ out)) :
    Unstacked t (ns ++ stack) (ns.flatMap (fun n => n :: n.descendants t) ++ out) := by
  induction ns with
  | nil => exact h
  | cons n ns ih =>
    rw [List.flatMap_cons, List.append_assoc]
    exact hns n List.mem_cons_self (ih fun m hm => hns m (List.mem_cons_of_mem n hm))

/-- A node on top of a stack comes off first, then all that stands below it. -/
theorem Unstacked.cons (hwf : t.WellFormed) (hn : n.Present t) {stack out : List NodeRef} (h : Unstacked t stack out) :
    Unstacked t (n :: stack) (n :: n.descendants t ++ out) := by
  revert stack out
  refine induction_upward hwf (motive := fun n => ∀ {stack out}, Unstacked t stack out →
    Unstacked t (n :: stack) (n :: n.descendants t ++ out)) (fun n _ ih stack out h => ?_) hn
  rw [NodeRef.descendants_eq hwf]
  exact .take (h.append fun c hc => (ih c hc).2)

/-- What stands below a node comes off the stack of its children. -/
theorem unstacked_descendants (hwf : t.WellFormed) (hn : n.Present t) :
    Unstacked t (n.children t) (n.descendants t) := by
  have hchildren : ∀ c ∈ n.children t, ∀ {stack out}, Unstacked t stack out →
      Unstacked t (c :: stack) (c :: c.descendants t ++ out) := fun c hc _ _ h =>
    h.cons hwf (parent_of_child hn ((NodeRef.mem_children hwf).mp hc)).2.1
  have h := Unstacked.append .done hchildren
  rwa [List.append_nil, List.append_nil, ← NodeRef.descendants_eq hwf] at h

theorem linked_of_eq {α : Type} {next? : α → Option α} {found : α → List α}
    (hlast : ∀ a, next? a = none → found a = []) (hlink : ∀ a b, next? a = some b → found a = b :: found b) (a : α) :
    Linked next? a (found a) := by
  induction hl : found a generalizing a with
  | nil =>
    refine .done ?_
    cases hnext : next? a with
    | none => rfl
    | some b =>
      rw [hlink a b hnext] at hl
      cases hl
  | cons b l ih =>
    cases hnext : next? a with
    | none =>
      rw [hlast a hnext] at hl
      cases hl
    | some c =>
      rw [hlink a c hnext] at hl
      obtain ⟨rfl, rfl⟩ := List.cons.inj hl
      exact .link hnext (ih c rfl)

/-- What stands above a node is found link by link. -/
theorem linked_ancestors (hwf : t.WellFormed) (n : NodeRef) : Linked (NodeRef.parent? t) n (n.ancestors t) := by
  refine linked_of_eq (fun m hm => ?_) (fun m p hm => ?_) n <;> rw [NodeRef.ancestors_eq hwf, hm]

/-- The siblings behind an element are found link by link. -/
theorem linked_followingSiblings (hwf : t.WellFormed) (id : NodeId) :
    Linked t.nextSibling? id (t.followingSiblings id) := by
  refine linked_of_eq (fun a hlast => ?_) (fun a b => hwf.followingSiblings_nextSibling?) id
  cases hp : t.parent? a with
  | none => simp [Tree.followingSiblings, Tree.position?, hp]
  | some p =>
    obtain ⟨before, after, hs⟩ := hwf.exists_split hp
    rw [hwf.nextSibling?_of_split hs, List.head?_eq_none_iff] at hlast
    rw [hwf.followingSiblings_of_split hs, hlast]

/-- The siblings before an element are found link by link. -/
theorem linked_precedingSiblings (hwf : t.WellFormed) (id : NodeId) :
    Linked t.previousSibling? id (t.precedingSiblings id) := by
  refine linked_of_eq (fun a hlast => ?_) (fun a b hlink => ?_) id
  · cases hp : t.parent? a with
    | none => simp [Tree.precedingSiblings, Tree.position?, hp]
    | some p =>
      obtain ⟨before, after, hs⟩ := hwf.exists_split hp
      rw [hwf.previousSibling?_of_split hs, List.getLast?_eq_none_iff] at hlast
      rw [hwf.precedingSiblings_of_split hs, hlast, List.reverse_nil]
  · cases hp : t.parent? a with
    | none => simp [Tree.previousSibling?, Tree.position?, hp] at hlink
    | some p =>
      obtain ⟨before, after, hs⟩ := hwf.exists_split hp
      rw [hwf.previousSibling?_of_split hs] at hlink
      obtain ⟨front, rfl⟩ := List.getLast?_eq_some_iff.mp hlink
      rw [List.append_assoc, List.singleton_append] at hs
      have hs' : t.children p = (front ++ [b]) ++ a :: after := by rw [hs, List.append_assoc, List.singleton_append]
      rw [hwf.precedingSiblings_of_split hs', hwf.precedingSiblings_of_split hs, List.reverse_concat]

/-! ## Inverses -/

/-- Whether a node has a place in the tree: an element, a text that is not empty, or the document of a root. -/
def NodeRef.Placed (t : Tree) (n : NodeRef) : Prop := n.Present t ∧ ¬ n.IsAttr

theorem mem_descendants_iff_mem_ancestors (hwf : t.WellFormed) (hx : x.Placed t) (hy : y.Placed t) :
    y ∈ x.descendants t ↔ x ∈ y.ancestors t := by
  rw [NodeRef.mem_ancestors hwf]
  exact ⟨fun h => (below_of_mem_descendants hwf hx.1 h).1, mem_descendants_of_below hwf hy.1 hy.2⟩

theorem mem_children_iff_parent? (hwf : t.WellFormed) (hx : x.Placed t) (hy : y.Placed t) :
    y ∈ x.children t ↔ y.parent? t = some x := by
  rw [NodeRef.mem_children hwf, NodeRef.parent?_eq_some_iff]
  exact ⟨fun h => (parent_of_child hx.1 h).1, fun h => (child_of_parent hy.1 hy.2 h).1⟩

theorem mem_followingSiblings_iff (hwf : t.WellFormed) {a b : NodeId} :
    b ∈ t.followingSiblings a ↔ a ∈ t.precedingSiblings b :=
  (followingSiblings_iff hwf).trans (precedingSiblings_iff hwf).symm

theorem nodup_descendants (hwf : t.WellFormed) (hx : x.Present t) : (x.descendants t).Nodup := by
  refine (pairwise_descendants hwf hx).imp fun h => ?_
  rintro rfl
  exact h.asymm hwf h

/-- The axes of a well-formed tree are inverse to each other.  A node stands below another one if and only if that
    one stands above it; it is a child of its parent and of no other node; and an element follows another one if and
    only if that one precedes it.  What stands below a node is listed in document order and each node once, and all
    of it has a place in the tree. -/
theorem axes_inverse (hwf : t.WellFormed) (hx : x.Placed t) :
    (∀ y : NodeRef, y.Placed t →
        (y ∈ Axis.descendant.nodes t x ↔ x ∈ Axis.ancestor.nodes t y)
          ∧ (y ∈ Axis.child.nodes t x ↔ Axis.parent.nodes t y = [x]))
      ∧ (∀ a b : NodeId, .element b ∈ Axis.followingSibling.nodes t (.element a)
          ↔ .element a ∈ Axis.precedingSibling.nodes t (.element b))
      ∧ (Axis.descendant.nodes t x).Nodup
      ∧ (Axis.descendant.nodes t x).Pairwise (Precedes t)
      ∧ ∀ y ∈ Axis.descendant.nodes t x, y.Placed t := by
  refine ⟨fun y hy => ⟨?_, ?_⟩, fun a b => ?_, ?_, ?_, fun y hy => ?_⟩
  · exact mem_descendants_iff_mem_ancestors hwf hx hy
  · rw [Axis.nodes, Axis.nodes, Option.toList_eq_singleton_iff]
    exact mem_children_iff_parent? hwf hx hy
  · have hinj : Function.Injective NodeRef.element := fun _ _ => NodeRef.element.inj
    rw [Axis.nodes, NodeRef.followingSiblings, List.mem_map_of_injective hinj]
    rw [Axis.nodes, NodeRef.precedingSiblings, List.mem_map_of_injective hinj]
    exact mem_followingSiblings_iff hwf
  · exact nodup_descendants hwf hx.1
  · exact pairwise_descendants hwf hx.1
  · exact (below_of_mem_descendants hwf hx.1 hy).2

/-- In a document with a text in a group and a field behind the group, the text stands below the document, and the
    group before the field. -/
theorem axes_inverse_of_group :
    let t := Tree.ofElement (.mk "f" [] "" .none
      [.mk "a" [] "1" .none [], .mk "item" [] "2" .none []])
    .document 0 ∈ Axis.ancestor.nodes t (.text 1)
      ∧ Axis.parent.nodes t (.element 0) = [.document 0]
      ∧ .element 1 ∈ Axis.precedingSibling.nodes t (.element 2)
      ∧ [NodeRef.element 0, .element 1, .text 1, .element 2, .text 2].Pairwise (Precedes t) := by
  intro t
  have hwf : t.WellFormed := (Tree.grafted_ofElement _).wellFormed
  have hroot : (NodeRef.document 0).Placed t := ⟨show t.parent? 0 = none by decide +kernel, id⟩
  have htext : (NodeRef.text 1).Placed t := ⟨show t.text 1 ≠ "" by decide +kernel, id⟩
  obtain ⟨hinverse, hsiblings, -, hordered, -⟩ := axes_inverse hwf hroot
  have hbelow : Axis.descendant.nodes t (.document 0) = [.element 0, .element 1, .text 1, .element 2, .text 2] := by
    decide +kernel
  refine ⟨(hinverse _ htext).1.mp (by rw [hbelow]; decide), ?_, (hsiblings 1 2).mp (by decide +kernel), ?_⟩
  · exact (hinverse (.element 0) ⟨trivial, id⟩).2.mp (by decide +kernel)
  · rw [← hbelow]
    exact hordered

end Stencil.Query
