/-
  Changes to the tree of a run.

  Every change is one of three kinds.  *Contents*: a node's name, attributes, text or computed values
  are replaced (`modify` and what is built from it).  *Links*: a node is taken out of its parent's
  children (`detach`) and put among those of another (`insertAfter`, `appendChild`, `prependChild`).
  *Slots*: a new node takes the free slot that was given up last, or else a new slot (`allocate`), and
  a node that is no longer needed gives its slot up together with all below it (`release`).
-/
import Stencil.Error
import Stencil.Tree.Basic

set_option autoImplicit false

namespace Stencil.Tree

/-! ## Contents -/

/-- Changes the node in a slot. -/
def modify (t : Tree) (id : NodeId) (f : Node → Node) : Tree :=
  { t with nodes := t.nodes.modify id f }

/-- Gives a node another name. -/
def rename (t : Tree) (id : NodeId) (name : String) : Tree :=
  t.modify id fun n => { n with name }

/-- Declares an attribute, in place if it is declared already. -/
def setAttr (t : Tree) (id : NodeId) (name value : String) : Tree :=
  t.modify id fun n => { n with attrs := n.attrs.insert name value }

/-- Drops the declared attributes whose names are not among `keep`. -/
def retainAttrs (t : Tree) (id : NodeId) (keep : List String) : Tree :=
  t.modify id fun n => { n with attrs := n.attrs.filter fun a => keep.contains a.1 }

/-- Replaces the own text. -/
def setText (t : Tree) (id : NodeId) (text : String) : Tree :=
  t.modify id fun n => { n with text }

/-- Changes the computed values. -/
def modifyComputed (t : Tree) (id : NodeId) (f : Computed → Computed) : Tree :=
  t.modify id fun n => { n with computed := f n.computed }

/-- Sets the iteration a node stands for. -/
def setSeq (t : Tree) (id : NodeId) (n : Nat) : Tree :=
  t.modifyComputed id fun c => { c with seq := some n }

/-- Sets or clears the parent of a node. -/
def setParent (t : Tree) (id : NodeId) (parent : Option NodeId) : Tree :=
  t.modify id fun n => { n with parent }

/-- Changes the list of children of a node. -/
def modifyChildren (t : Tree) (id : NodeId) (f : List NodeId → List NodeId) : Tree :=
  t.modify id fun n => { n with children := f n.children }

/-- Makes a text the whole content of a node.  Its children become roots; they live on. -/
def setValue (t : Tree) (id : NodeId) (text : String) : Tree :=
  let cleared := (t.modifyChildren id fun _ => []).setText id text
  (t.children id).foldl (fun t c => t.setParent c none) cleared

/-! ## Links -/

/-- Makes a node a root. -/
def detach (t : Tree) (id : NodeId) : Tree :=
  match t.parent? id with
  | some p => (t.modifyChildren p fun cs => cs.erase id).setParent id none
  | none => t

/-- Puts a node at a place among the children of another. -/
def attachAt (t : Tree) (parent : NodeId) (place : Nat) (id : NodeId) : Tree :=
  (t.modifyChildren parent fun cs => cs.take place ++ id :: cs.drop place).setParent id (some parent)

/-- Moves a node behind another.  The place is the one after `anchor` before the move; without the
    node, there may be no such place. -/
def insertAfter (t : Tree) (anchor id : NodeId) : Except Error Tree :=
  match t.position? anchor with
  | some (p, i) =>
    let others := t.detach id
    let length := (others.children p).length
    if i + 1 ≤ length then .ok (others.attachAt p (i + 1) id)
    else .error (.of (.placeBeyondEnd (i + 1) length))
  | none => .error (.of .siblingOfRoot)

/-- Moves a node behind the last child of another. -/
def appendChild (t : Tree) (parent id : NodeId) : Tree :=
  ((t.detach id).modifyChildren parent fun cs => cs ++ [id]).setParent id (some parent)

/-- Moves a node before the first child of another. -/
def prependChild (t : Tree) (parent id : NodeId) : Tree :=
  ((t.detach id).modifyChildren parent fun cs => id :: cs).setParent id (some parent)

/-! ## Slots -/

/-- Puts a node into the next slot, as the last child of its parent if it has one. -/
def allocate (t : Tree) (node : Node) : NodeId × Tree :=
  let (id, placed) : NodeId × Tree :=
    match t.free with
    | i :: is => (i, ⟨t.nodes.setIfInBounds i node, is⟩)
    | [] => (t.nodes.size, ⟨t.nodes.push node, []⟩)
  match node.parent with
  | some p => (id, placed.modifyChildren p fun cs => cs ++ [id])
  | none => (id, placed)

/-- A new element, as the last child of a parent or as a root. -/
def addElement (t : Tree) (parent : Option NodeId) (name : String) : NodeId × Tree :=
  t.allocate { Node.unused with name, parent }

/-- Gives a slot up. -/
def vacate (t : Tree) (id : NodeId) : Tree :=
  { t.modify id fun _ => .unused with free := id :: t.free }

/-- Gives up a node and all nodes below it, these first. -/
def release (t : Tree) (id : NodeId) : Tree :=
  let detached := t.detach id
  (detached.descendants id ++ [id]).foldl vacate detached

/-! ## Laws -/

@[simp] theorem size_nodes_modify (t : Tree) (id : NodeId) (f : Node → Node) :
    (t.modify id f).nodes.size = t.nodes.size := by simp [modify]

@[simp] theorem free_modify (t : Tree) (id : NodeId) (f : Node → Node) :
    (t.modify id f).free = t.free := rfl

/-- A change is seen in its slot only. -/
theorem node_modify (t : Tree) (id other : NodeId) (f : Node → Node) :
    (t.modify id f).node other
      = if id = other ∧ other < t.nodes.size then f (t.node other) else t.node other := by
  unfold modify node
  rw [Array.getD_eq_getD_getElem?, Array.getD_eq_getD_getElem?, Array.getElem?_modify]
  by_cases h : id = other
  · subst h
    by_cases hlt : id < t.nodes.size
    · simp [hlt]
    · simp [hlt]
  · simp [h]

/-- The nodes that live are the same after a change. -/
theorem live_modify (t : Tree) (id other : NodeId) (f : Node → Node) :
    (t.modify id f).Live other ↔ t.Live other := by simp [Live]

end Stencil.Tree
