/-
  Elements as values, and copies of them in the tree.

  An `Element` is a node with everything below it, free of slots: what a document is, and what two
  copies have in common.  `Tree.element` reads an element off the tree; `Tree.graft` puts one into it.
  `Tree.deepClone` copies a node of the tree that the copy is put into, node by node.

  Grafting and copying fill slots in a fixed order, which shows in the numbers of the new nodes: first
  the node itself; then all its children, in order; then, beginning with the last child, what is below
  each.  `Tree.loadInto` fills them in document order instead, as reading a document does.
-/
import Stencil.Tree.Edit

set_option autoImplicit false

namespace Stencil

/-- An element with everything below it. -/
inductive Element where
  | mk (name : String) (attrs : Entries String) (text : String) (computed : Computed)
      (children : List Element)
  deriving Repr

namespace Element

/-- The name. -/
def name : Element → String
  | mk n _ _ _ _ => n

/-- The declared attributes. -/
def attrs : Element → Entries String
  | mk _ a _ _ _ => a

/-- The own text. -/
def text : Element → String
  | mk _ _ t _ _ => t

/-- The computed values. -/
def computed : Element → Computed
  | mk _ _ _ c _ => c

/-- The elements directly below. -/
def children : Element → List Element
  | mk _ _ _ _ cs => cs

/-- A declared attribute. -/
def attr? (e : Element) (name : String) : Option String := e.attrs.get? name

/-- The element as a node without children. -/
def toNode (e : Element) (parent : Option NodeId) : Node :=
  ⟨e.name, e.attrs, e.text, [], parent, e.computed⟩

mutual

/-- The element and those below it, in document order. -/
def all : Element → List Element
  | mk n a t c cs => mk n a t c cs :: allOf cs

/-- The elements of a list and those below them, in document order. -/
def allOf : List Element → List Element
  | [] => []
  | e :: es => all e ++ allOf es

end

/-- The number of elements. -/
def size (e : Element) : Nat := e.all.length

end Element

namespace Tree

/-! ## Reading -/

/-- The element at a node, down to a depth. -/
def elementWithin (t : Tree) : Nat → NodeId → Element
  | 0, id => .mk (t.name id) (t.node id).attrs (t.text id) (t.computed id) []
  | n + 1, id =>
    .mk (t.name id) (t.node id).attrs (t.text id) (t.computed id)
      ((t.children id).map (elementWithin t n))

/-- The element at a node. -/
def element (t : Tree) (id : NodeId) : Element := t.elementWithin t.nodes.size id

/-! ## Grafting -/

/-- Puts elements without what is below them into the tree, as the last children of a node. -/
def allocateAll (t : Tree) (parent : NodeId) : List Element → List NodeId × Tree
  | [] => ([], t)
  | e :: es =>
    let (id, t) := t.allocate (e.toNode (some parent))
    let (ids, t) := allocateAll t parent es
    (id :: ids, t)

mutual

/-- Puts what is below an element below the node that stands for it. -/
def fill (t : Tree) (id : NodeId) : Element → Tree
  | .mk _ _ _ _ cs =>
    let (ids, t) := t.allocateAll id cs
    fillEach t ids cs

/-- Puts what is below each element below its node, beginning with the last. -/
def fillEach (t : Tree) : List NodeId → List Element → Tree
  | id :: ids, e :: es => fill (fillEach t ids es) id e
  | _, [] => t
  | [], _ :: _ => t

end

/-- Puts a copy of an element into the tree, as the last child of a parent or as a root. -/
def graft (t : Tree) (parent : Option NodeId) (e : Element) : NodeId × Tree :=
  let (id, t) := t.allocate (e.toNode parent)
  (id, t.fill id e)

/-! ## Copying -/

/-- Copies a node without its children, as the last child of a parent or as a root. -/
def copyNode (t : Tree) (source : NodeId) (parent : Option NodeId) : NodeId × Tree :=
  t.allocate { t.node source with children := [], parent }

/-- Copies nodes without their children, as the last children of a node; gives each with its copy. -/
def copyNodes (t : Tree) (parent : NodeId) : List NodeId → List (NodeId × NodeId) × Tree
  | [] => ([], t)
  | source :: sources =>
    let (copy, t) := t.copyNode source (some parent)
    let (copies, t) := copyNodes t parent sources
    ((source, copy) :: copies, t)

/-- Copies what is below nodes below their copies, in at most so many rounds.  A round takes the pair of
    a node and its copy that was put down last, and puts down the children with theirs. -/
def copyBelow (t : Tree) : Nat → List (NodeId × NodeId) → Tree
  | 0, _ => t
  | _ + 1, [] => t
  | n + 1, (source, copy) :: pending =>
    let (copies, t) := t.copyNodes copy (t.children source)
    copyBelow t n (copies.reverse ++ pending)

/-- Puts a copy of a node and everything below it into the tree, as a root. -/
def deepClone (t : Tree) (id : NodeId) : NodeId × Tree :=
  let (copy, placed) := t.copyNode id none
  (copy, placed.copyBelow t.nodes.size [(id, copy)])

/-! ## Loading -/

mutual

/-- Puts an element into the tree in document order. -/
def loadInto (t : Tree) (parent : Option NodeId) : Element → Tree
  | .mk n a x c cs =>
    let (id, t) := t.allocate ⟨n, a, x, [], parent, c⟩
    loadAll t id cs

/-- Puts elements into the tree in document order, as the last children of a node. -/
def loadAll (t : Tree) (parent : NodeId) : List Element → Tree
  | [] => t
  | e :: es => loadAll (loadInto t (some parent) e) parent es

end

/-- The tree that holds one document, its nodes numbered in document order from 0. -/
def ofElement (e : Element) : Tree := loadInto empty none e

end Tree

end Stencil
