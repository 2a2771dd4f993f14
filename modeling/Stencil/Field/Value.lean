/-
  The value of a field.

  The children of a field say what its value is.  They are taken one after another: a `value` replaces
  what is there, a `default-value` does if nothing is there, and a `transform` replaces what is there
  with the character map it names.  A value is written out in its element, or the element says where it
  comes from: a path query at the field, the time, a counter, a value from outside, or a number in the
  element that grows by one each time it is taken.
-/
import Stencil.Query.Eval
import Stencil.Text.Integer
import Stencil.Workspace

set_option autoImplicit false

namespace Stencil.Field

open Stencil.Text (boundedInt trim)

/-- Where a value comes from. -/
inductive Origin where
  /-- It is written out. -/
  | literal
  /-- A path query at the field. -/
  | query
  /-- The time. -/
  | time
  /-- A counter. -/
  | counter
  /-- A number that grows. -/
  | increment
  /-- A value from outside. -/
  | outside
  deriving DecidableEq, Repr

/-- The origin that a `type` attribute names. -/
def Origin.ofName : Option String → Origin
  | some "xpath" => query
  | some "current-time" => time
  | some "counter" => counter
  | some "auto-increment" => increment
  | some "external" => outside
  | _ => literal

/-- Takes the number in an element, which grows by one.  No text is the number zero. -/
def takeIncrement (node : NodeId) (text : String) : Action Workspace String := do
  if text.isEmpty then
    Workspace.modifyTree fun t => t.setValue node "1"
    return "0"
  else
    match boundedInt .int64 (trim text) with
    | .error _ => .fail (.badIncrement text)
    | .ok n =>
      if n < lastCount then
        Workspace.modifyTree fun t => t.setValue node (toString (n + 1))
        return text
      else .fail .incrementOverflow

/-- The value that an element gives to a field. -/
def evaluate (o : Options) (node item : NodeId) : Action Workspace String := do
  let t := (← get).tree
  let text := t.stringValue node
  match Origin.ofName (t.attr? node "type") with
  | .literal => return text
  | .query => Action.ofExcept (Query.evaluate t (.element item) text)
  | .time => Action.ofExcept (TimePattern.format o.now text)
  | .counter => return toString (← Workspace.draw (if text.isEmpty then none else some text))
  | .increment => takeIncrement node text
  | .outside => return o.external text

/-- The value behind a child of the field, `value` being the one before it. -/
def takeChild (o : Options) (read : FileReader) (item : NodeId) (value : String) (child : NodeId) :
    Action Workspace String := do
  match (← get).tree.name child with
  | "value" => evaluate o child item
  | "default-value" => if value.isEmpty then evaluate o child item else return value
  | "transform" =>
    if value.isEmpty then return value
    else Workspace.transform o read ((← get).tree.stringValue child) value
  | _ => return value

/-- The value of a field. -/
def value (o : Options) (read : FileReader) (item : NodeId) : Action Workspace String := do
  ((← get).tree.children item).foldlM (takeChild o read item) ""

end Stencil.Field
