/-
  Fields and groups of a walk, and the names of outputs.

  A field that the walk reaches first gets its value from the records: the value under its key is put
  into its `value` child.  A group only extends the key; the walk goes into it and comes back behind it.
  If nothing is behind it, a node that stands for nothing is put there first.

  The name of an output is the text that the fields in the body of a `writer` make.  `render` walks such
  a body, which holds fields and groups only.
-/
import Stencil.Walk.Basic

set_option autoImplicit false

namespace Stencil.Walk

/-- The value of a field in the records, under a key. -/
def recordValue (w : Walk) (f : Frame) (key : String) (item : NodeId) : String :=
  let secondary :=
    if w.space.tree.attr? item "type" = some "combined" ∧ f.seesSecondary then
      w.secondary.field? key
    else none
  match secondary with
  | some value => value
  | none => ((w.tableOf f.source).map fun t => t.field key).getD ""

/-- Puts a value into the `value` child of a field. -/
def putValue (t : Tree) (item : NodeId) (value : String) : Tree :=
  match t.child? item "value" with
  | some child => t.setValue child value
  | none =>
    let (child, t) := t.addElement none "value"
    (t.setText child value).prependChild item child

/-- Fills a field from the records. -/
def fillItem (f : Frame) (key : String) (item : NodeId) : Action Walk Unit := do
  let w ← get
  let value := w.recordValue f (w.space.tree.keyPath key item) item
  modifyTree fun t => putValue t item value

/-- Goes into a group: gives the tree, and the scan with the positions in the group and behind it. -/
def descend (t : Tree) (scan : List Position) (key : String) (group : NodeId) :
    Except Error (Tree × List Position) :=
  match t.firstChild? group with
  | none => .ok (t, scan)
  | some first =>
    let inside : Position := ⟨t.keyPath key group, first⟩
    match t.nextSibling? group, t.parent? group with
    | some next, _ => .ok (t, inside :: ⟨key, next⟩ :: scan)
    | none, none => .ok (t, inside :: scan)
    | none, some _ =>
      let (marker, t) := t.addElement none "nop"
      match t.insertAfter group marker with
      | .ok t => .ok (t, inside :: ⟨key, marker⟩ :: scan)
      | .error e => .error e

/-- The position behind a node, if there is a node. -/
def behind (t : Tree) (scan : List Position) (p : Position) : List Position :=
  match t.nextSibling? p.node with
  | some next => ⟨p.key, next⟩ :: scan
  | none => scan

/-- The tag of a node. -/
def tagOf (t : Tree) (node : NodeId) : Except Error Tag :=
  match Tag.ofName? (t.name node) with
  | some tag => .ok tag
  | none => .error (.atSite (.unknownTag (t.name node)) (t.describe node))

/-- Writes a field to a text sink. -/
def writeText (o : Options) (item : NodeId) (s : Sink) : Action Walk Sink := fun w =>
  let files := w.files
  let space := w.space
  let rest := { w with space := default }
  match Job.write o files item none ⟨space, s⟩ with
  | .ok _ j => .ok j.sink { rest with space := j.space }
  | .error e j => .error e { rest with space := j.space }

/-- Visits one node of the body of a `writer`. -/
def renderNode (o : Options) (f : Frame) (s : Sink) (scan : List Position) (p : Position) :
    Action Walk (Sink × List Position) := do
  let t := (← get).space.tree
  match ← Action.ofExcept (tagOf t p.node) with
  | .item =>
    fillItem f p.key p.node
    let s ← writeText o p.node s
    return (s, behind (← get).space.tree scan p)
  | .items =>
    if t.hasChildren p.node then
      let (t, scan) ← Action.ofExcept (descend t scan p.key p.node)
      modifyTree fun _ => t
      return (s, scan)
    else return (s, behind t scan p)
  | .nop => return (s, behind t scan p)
  | _ => .failAt (.forbiddenInWriter (t.name p.node)) (t.describe p.node)

/-- Visits the nodes of the body of a `writer`, at most so many. -/
def renderFrom (o : Options) (f : Frame) : Nat → Sink → List Position → Action Walk Sink
  | _, s, [] => pure s
  | 0, _, _ :: _ => .fail .exhausted
  | n + 1, s, p :: scan => do
    let (s, scan) ← renderNode o f s scan p
    renderFrom o f n s scan

/-- The text that the body of a `writer` makes.  Each node of the body is visited once, and so is a
    node that is put behind a group. -/
def render (o : Options) (f : Frame) (node : NodeId) : Action Walk String := do
  let t := (← get).space.tree
  let scan : List Position :=
    match t.firstChild? node with
    | some first => [⟨(t.attr? node "key").getD "", first⟩]
    | none => []
  return TextSink.contents (← renderFrom o f (2 * (t.descendants node).length + 1) TextSink.empty scan)

end Stencil.Walk
