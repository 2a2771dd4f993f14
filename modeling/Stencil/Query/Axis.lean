/-
  Axes and node tests: which nodes a step reaches.

  Downward axes follow the children of elements, an own text before them; upward ones the parents, of
  which the last is the document.  Attributes and texts have a parent but are no element's siblings.
-/
import Stencil.Query.Expr
import Stencil.Query.Value

set_option autoImplicit false

namespace Stencil.Query

namespace NodeRef

/-- The nodes directly below a node: an own text that is not empty, then the elements. -/
def children (t : Tree) : NodeRef → List NodeRef
  | document root => [element root]
  | element id => (if (t.text id).isEmpty then [] else [text id]) ++ (t.children id).map element
  | attr .. | text _ => []

/-- The node directly above a node. -/
def parent? (t : Tree) : NodeRef → Option NodeRef
  | document _ => none
  | element id =>
    match t.parent? id with
    | some p => some (element p)
    | none => some (document id)
  | attr id _ | text id => some (element id)

/-- The nodes below a node in document order, down to a depth. -/
def descendantsWithin (t : Tree) : Nat → NodeRef → List NodeRef
  | 0, _ => []
  | d + 1, n => (n.children t).flatMap fun c => c :: descendantsWithin t d c

/-- The nodes below a node in document order. -/
def descendants (t : Tree) (n : NodeRef) : List NodeRef := n.descendantsWithin t (t.nodes.size + 2)

/-- The nodes above a node, the nearest first, up to a height. -/
def ancestorsWithin (t : Tree) : Nat → NodeRef → List NodeRef
  | 0, _ => []
  | h + 1, n =>
    match n.parent? t with
    | some p => p :: ancestorsWithin t h p
    | none => []

/-- The nodes above a node, the nearest first. -/
def ancestors (t : Tree) (n : NodeRef) : List NodeRef := n.ancestorsWithin t (t.nodes.size + 2)

/-- The attributes of an element. -/
def attributes (t : Tree) : NodeRef → List NodeRef
  | element id => (t.attributeNames id).map (attr id)
  | _ => []

/-- The elements behind an element under the same parent, the nearest first. -/
def followingSiblings (t : Tree) : NodeRef → List NodeRef
  | element id => (t.followingSiblings id).map element
  | _ => []

/-- The elements before an element under the same parent, the nearest first. -/
def precedingSiblings (t : Tree) : NodeRef → List NodeRef
  | element id => (t.precedingSiblings id).map element
  | _ => []

/-- The document a node belongs to. -/
def documentOf (t : Tree) (n : NodeRef) : NodeRef := document (t.rootOf n.anchor)

end NodeRef

namespace Axis

/-- The nodes on an axis. -/
def nodes (t : Tree) (n : NodeRef) : Axis → List NodeRef
  | child => n.children t
  | descendant => n.descendants t
  | descendantOrSelf => n :: n.descendants t
  | self => [n]
  | parent => (n.parent? t).toList
  | ancestor => n.ancestors t
  | ancestorOrSelf => n :: n.ancestors t
  | attributes => n.attributes t
  | followingSibling => n.followingSiblings t
  | precedingSibling => n.precedingSiblings t

end Axis

/-- Whether a node on an axis passes a test. -/
def NodeTest.passes (t : Tree) (axis : Axis) : NodeTest → NodeRef → Bool
  | .node, _ => true
  | .text, .text _ => true
  | .any, .attr .. => axis == .attributes
  | .any, .element _ => axis != .attributes
  | .named want, .attr _ name => axis == .attributes && want == name
  | .named want, .element id => axis != .attributes && t.name id == want
  | _, _ => false

end Stencil.Query
