/-
  What path queries compute: sets of nodes, texts, numbers and truth values.

  A set of nodes is a list without repetition; its first node stands for it where one text is needed.
  Every value converts to the other three kinds except to a set of nodes.
-/
import Stencil.Number
import Stencil.Text.Blank
import Stencil.Tree.Basic

set_option autoImplicit false

namespace Stencil.Query

open Stencil.Text (trim)

/-- What a query can select. -/
inductive NodeRef where
  /-- The document whose root is given. -/
  | document (root : NodeId)
  | element (id : NodeId)
  /-- An attribute, computed or declared, of an element. -/
  | attr (id : NodeId) (name : String)
  /-- The own text of an element. -/
  | text (id : NodeId)
  deriving DecidableEq, Repr

namespace NodeRef

/-- The element that a node is, belongs to or, for a document, begins with. -/
def anchor : NodeRef → NodeId
  | document id | element id | attr id _ | text id => id

/-- The element, if the node is one. -/
def element? : NodeRef → Option NodeId
  | element id => some id
  | _ => none

/-- The text of a node. -/
def stringValue (t : Tree) : NodeRef → String
  | document id | element id => t.stringValue id
  | attr id name => (t.attribute? id name).getD ""
  | text id => t.text id

/-- The name of a node; documents and texts have none. -/
def name (t : Tree) : NodeRef → String
  | element id => t.name id
  | attr _ name => name
  | document _ | text _ => ""

end NodeRef

/-- A value. -/
inductive Value where
  | nodes (ns : List NodeRef)
  | text (s : String)
  | number (x : Float)
  | truth (b : Bool)

namespace Value

/-- The number a text stands for, blanks around it apart; not a number if it is none. -/
def numberOfText (s : String) : Float := (Number.ofString? (trim s)).getD (0.0 / 0.0)

/-- The text of a value. -/
def toText (t : Tree) : Value → String
  | nodes ns => (ns.head?.map fun n => n.stringValue t).getD ""
  | text s => s
  | number x => Number.text x
  | truth b => if b then "true" else "false"

/-- The number of a value. -/
def toNumber (t : Tree) : Value → Float
  | number x => x
  | truth b => if b then 1 else 0
  | v => numberOfText (v.toText t)

/-- The truth of a value: some node, some text, a number other than zero. -/
def toTruth : Value → Bool
  | nodes ns => !ns.isEmpty
  | text s => !s.isEmpty
  | number x => x != 0 && !x.isNaN
  | truth b => b

/-- The single values that stand for a value in comparisons: the texts of all nodes, or itself. -/
def atoms (t : Tree) : Value → List Value
  | nodes ns => ns.map fun n => text (n.stringValue t)
  | v => [v]

/-- Whether single values are equal: as truth values if one is, else as numbers if one is, else as
    texts. -/
def atomsEqual (t : Tree) (a b : Value) : Bool :=
  match a, b with
  | truth _, _ | _, truth _ => a.toTruth == b.toTruth
  | number _, _ | _, number _ => a.toNumber t == b.toNumber t
  | _, _ => a.toText t == b.toText t

end Value

end Stencil.Query
