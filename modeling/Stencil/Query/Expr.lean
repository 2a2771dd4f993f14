/-
  Path queries as terms.

  A query is built from location paths, which are steps along axes with tests and predicates; from
  literals, numbers and function calls; and from operators.  A filter is any other query that is
  narrowed by predicates and continued by steps.
-/
import Stencil.Number

set_option autoImplicit false

namespace Stencil.Query

/-- The directions a step can go. -/
inductive Axis where
  | child | descendant | descendantOrSelf | self | parent | ancestor | ancestorOrSelf
  | attributes | followingSibling | precedingSibling
  deriving DecidableEq, Repr

namespace Axis

/-- The axes under their names. -/
def names : List (String × Axis) :=
  [("child", child), ("descendant", descendant), ("descendant-or-self", descendantOrSelf),
   ("self", self), ("parent", parent), ("ancestor", ancestor), ("ancestor-or-self", ancestorOrSelf),
   ("attribute", attributes), ("following-sibling", followingSibling),
   ("preceding-sibling", precedingSibling)]

/-- The axis of a name. -/
def ofName? (name : String) : Option Axis := (names.find? fun p => p.1 == name).map Prod.snd

/-- The name of an axis. -/
def name (a : Axis) : String := ((names.find? fun p => p.2 == a).map Prod.fst).getD ""

/-- Names are read back. -/
theorem ofName?_name (a : Axis) : ofName? a.name = some a := by cases a <;> decide

end Axis

/-- What a step keeps of the nodes on its axis. -/
inductive NodeTest where
  /-- Elements, or attributes on their axis, of a name. -/
  | named (name : String)
  /-- Elements, or attributes on their axis. -/
  | any
  /-- Texts. -/
  | text
  /-- Every node. -/
  | node
  deriving DecidableEq, Repr

/-- The operators between two operands. -/
inductive Operator where
  | or | and | equal | notEqual | less | lessEqual | greater | greaterEqual
  | add | subtract | multiply | divide | modulo
  deriving DecidableEq, Repr

mutual

/-- A path query. -/
inductive Expr where
  | literal (text : String)
  | number (value : Number.Decimal)
  | path (absolute : Bool) (steps : List Step)
  | filter (primary : Expr) (predicates : List Expr) (steps : List Step)
  | binary (op : Operator) (left right : Expr)
  | negate (operand : Expr)
  | union (left right : Expr)
  | call (function : String) (arguments : List Expr)

/-- A step of a location path. -/
inductive Step where
  | mk (axis : Axis) (test : NodeTest) (predicates : List Expr)

end

namespace Step

/-- A step without predicates that keeps every node on an axis. -/
def toward (axis : Axis) : Step := .mk axis .node []

end Step

end Stencil.Query
